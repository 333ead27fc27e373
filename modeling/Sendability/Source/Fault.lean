/-
  Why a text is not a program, and the words for it.

  A fault is a cause; `Fault.message` is the one place where causes become
  text, and `Fault.span` says where they point. A stray character is shown in
  its line, with up to 40 characters on either side and a caret below it. The
  terminals that could have stood in its place, or in that of a token that does
  not fit, form a set without a fixed order; the text of a fault leaves them out.
-/
import Sendability.IR.Basic
import Sendability.Source.Token

namespace Sendability.Source

/-- A stray character with the text around it: what stands before it in its
    line and the line from it on, at most 40 characters each, and the token
    before it. -/
structure Stray where
  char : CodePoint
  pos : Position
  before : List CodePoint
  line : List CodePoint
  previous : Option Token
  deriving DecidableEq, Inhabited

/-- Why a text is not a program. -/
inductive Fault where
  /-- A character starts no token. -/
  | stray (s : Stray)
  /-- A token does not fit. -/
  | unexpected (t : Token)
  /-- The text ends too early; it is blamed on the start of the last token. -/
  | unexpectedEnd (last : Option Token)
  /-- A type is declared twice. -/
  | duplicateType (name : Token)
  /-- Two parameters have one name. -/
  | duplicateParam (name : Token)
  /-- Two blocks of a function have one label. -/
  | duplicateBlock (label : Token) (function : Name)
  /-- Two functions have one name. -/
  | duplicateFunction (name : Token) (start stop : Position)
  /-- A value is defined with a second type. -/
  | redefined (value : Token) (type was : Name)
  /-- The type written for a value is not the type it is built with. -/
  | annotationMismatch (value : Token) (annotated built : Name)
  /-- The result of a field read has no written type. -/
  | untypedLoad (value : Token)
  /-- The result of a call has no written type. -/
  | untypedCall (value : Token)
  /-- A copy has no written type and its source has no type either. -/
  | unresolvedCopy (dest src : Token)
  /-- A value is used that the function does not define. -/
  | undefinedValue (value : Token)
  deriving DecidableEq, Inhabited

/-- The number of columns that some characters fill: a tab goes to the next
    multiple of eight from the last carriage return or line feed on. -/
def displayWidth (cs : List CodePoint) : Nat :=
  (cs.foldl (fun (total, column) c =>
    if c = '\t'.toNat then
      let pad := 8 - column % 8
      (total + pad, column + pad)
    else if c = '\r'.toNat || c = '\n'.toNat then (total + 1, 0)
    else (total + 1, column + 1)) (0, 0)).1

/-- How far around a stray character its line is shown. -/
def contextWidth : Nat := 40

/-- The stray character at a place of a text. -/
def Stray.of (text : Text) (pos : Position) (previous : Option Token) : Stray :=
  let near := (text.points.take pos.offset).drop (pos.offset - contextWidth)
  let ahead := (text.points.drop pos.offset).take contextWidth
  { char := ahead.head?.getD ' '.toNat
    pos
    before := (near.reverse.takeWhile (· ≠ '\n'.toNat)).reverse
    line := ahead.takeWhile (· ≠ '\n'.toNat)
    previous }

namespace Fault

/-- The text of a stray character: the complaint, the line with a caret, and
    the token before it. -/
def strayMessage (s : Stray) : Text :=
  let complaint :=
    "No terminal matches '" ++ ⟨[s.char]⟩ ++ "' in the current parser context, at line " ++
      Text.ofInt s.pos.line ++ " col " ++ Text.ofInt s.pos.column
  let indent : Text := ⟨List.replicate (displayWidth s.before) ' '.toNat⟩
  let shown := complaint ++ "\n\n" ++ ⟨s.before ++ s.line⟩ ++ "\n" ++ indent ++ "^"
  match s.previous with
  | some t => shown ++ "\n\nPrevious tokens: " ++ t.show
  | none => shown

/-- The place blamed for an early end. -/
def endPosition (last : Option Token) : Position :=
  match last with
  | some t => t.start
  | none => {}

/-- The text of a fault. -/
def message : Fault → Text
  | .stray s => strayMessage s
  | .unexpected t =>
    "Unexpected token " ++ t.show ++ " at line " ++ Text.ofInt t.start.line ++ ", column " ++
      Text.ofInt t.start.column ++ "."
  | .unexpectedEnd last =>
    let p := endPosition last
    "Unexpected token Token('$END', '') at line " ++ Text.ofInt p.line ++ ", column " ++
      Text.ofInt p.column ++ "."
  | .duplicateType n => "duplicate type declaration '" ++ n.text ++ "'"
  | .duplicateParam n => "duplicate parameter '" ++ n.text ++ "'"
  | .duplicateBlock l f => "duplicate block '" ++ l.text ++ "' in function '" ++ f ++ "'"
  | .duplicateFunction n _ _ => "duplicate function '" ++ n.text ++ "'"
  | .redefined v t was =>
    "value '" ++ v.text ++ "' redefined with type '" ++ t ++ "' (was '" ++ was ++ "')"
  | .annotationMismatch v a b =>
    "'" ++ v.text ++ "' annotated as '" ++ a ++ "' but initialized as '" ++ b ++ "'"
  | .untypedLoad v => "field read '" ++ v.text ++ "' needs a type annotation"
  | .untypedCall v => "call result '" ++ v.text ++ "' needs a type annotation"
  | .unresolvedCopy d s =>
    "cannot infer type of '" ++ d.text ++ "': '" ++ s.text ++ "' is undefined"
  | .undefinedValue v => "use of undefined value '" ++ v.text ++ "'"

/-- The span of a place without an end. -/
def pointSpan (file : Option Text) (p : Position) : Span :=
  { file, line := some p.line, column := some p.column }

/-- The span between two places. -/
def rangeSpan (file : Option Text) (start stop : Position) : Span :=
  { file
    line := some start.line
    column := some start.column
    endLine := some stop.line
    endColumn := some stop.column }

/-- The span of a token. -/
def tokenSpan (file : Option Text) (t : Token) : Span := rangeSpan file t.start t.stop

/-- The span of a syntax node: an empty file name is no name. -/
def nodeSpan (file : Option Text) (start stop : Position) : Span :=
  Span.ofLocation file (.node (rangeSpan none start stop))

/-- Where a fault points in a text read from `file`. -/
def span (file : Option Text) : Fault → Span
  | .stray s => pointSpan file s.pos
  | .unexpected t => pointSpan file t.start
  | .unexpectedEnd last => pointSpan file (endPosition last)
  | .duplicateFunction _ start stop => nodeSpan file start stop
  | .unresolvedCopy _ t => tokenSpan file t
  | .duplicateType t | .duplicateParam t | .duplicateBlock t _ | .redefined t _ _
  | .annotationMismatch t _ _ | .untypedLoad t | .untypedCall t | .undefinedValue t =>
    tokenSpan file t

end Fault

end Sendability.Source
