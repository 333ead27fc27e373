/-
  Checking functions.

  A function is validated, analysed, and its accesses are turned into
  diagnostics, unless the configuration switches the check off. Functions are
  independent of each other, but for a classifier that remembers.

  What a run reports about its progress follows from its outcome alone:
  `Func.events` lists it.
-/
import Sendability.Analysis.Fixpoint
import Sendability.Analysis.Report
import Sendability.Config
import Sendability.IR.Validity

namespace Sendability

/-- The result of checking one function; there is no analysis when the check is
    switched off. -/
structure CheckResult where
  function : Name
  diagnostics : List Diagnostic := []
  bySite : List (Point × Diagnostic) := []
  analysis : Option Analysis := none
  deriving DecidableEq, Inhabited

/-- Why a function could not be checked. -/
inductive CheckFault where
  | malformed (m : Malformed)
  | obstacle (o : Obstacle)
  deriving DecidableEq, Inhabited

/-- The text of a fault. -/
def CheckFault.message : CheckFault → Text
  | .malformed m => m.message
  | .obstacle o => o.message

namespace Func

variable {σ : Type}

/-- The result for a function whose analysis is known. -/
def resultOf (f : Func) (severity : Text) (a : Analysis) : CheckResult :=
  let diagnostics := synthesize severity a.accesses
  let points := (groupAccesses a.accesses).map fun g => g.1.point
  { function := f.name, diagnostics, bySite := points.zip diagnostics, analysis := some a }

/-- Checks a function. A bound given in place of the function's own limits the
    block evaluations. -/
def check (f : Func) (config : Config) (c : Classifier σ) (memory : σ) (bound : Option Int) :
    Except CheckFault (CheckResult × σ) :=
  if config.enabled then
    match f.validate with
    | .error m => .error (.malformed m)
    | .ok () =>
      match f.solve c memory (bound.getD f.iterationBound) with
      | .error o => .error (.obstacle o)
      | .ok (a, memory) => .ok (f.resultOf config.severity a, memory)
  else .ok ({ function := f.name }, memory)

end Func

/-- The diagnostics of some functions in order, checked with one classifier; the
    first function that cannot be checked ends it. -/
def checkAll {σ : Type} (config : Config) (c : Classifier σ) (bound : Option Int) :
    σ → List Func → Except CheckFault (List Diagnostic)
  | _, [] => .ok []
  | memory, f :: rest => do
    let (r, memory) ← f.check config c memory bound
    let more ← checkAll config c bound memory rest
    return r.diagnostics ++ more

/-! ## Progress reports -/

/-- What a run reports about its progress. -/
inductive Event where
  | reading (path : Text)
  | started (function : Name) (blocks : Nat)
  | exceeded (function : Name) (bound : Int)
  | converged (function : Name) (evaluations : Nat)
  | checked (function : Name) (diagnostics : Nat)
  deriving DecidableEq, Inhabited

/-- Whether a report is made even when nobody asked for progress. -/
def Event.isError : Event → Bool
  | .exceeded .. => true
  | .reading _ | .started .. | .converged .. | .checked .. => false

/-- A report as one line: its level, its origin and its text. -/
def Event.line : Event → Text
  | .reading p => "DEBUG:sendck.sendck:checking " ++ p
  | .started f n =>
    "DEBUG:sendck.fixpoint:fixpoint: start " ++ f ++ " (" ++ Text.ofInt n ++ " blocks)"
  | .exceeded f b =>
    "ERROR:sendck.fixpoint:fixpoint: " ++ f ++ " exceeded " ++ Text.ofInt b ++ " block evaluations"
  | .converged f n =>
    "DEBUG:sendck.fixpoint:fixpoint: " ++ f ++ " converged after " ++ Text.ofInt n ++
      " block evaluations"
  | .checked f n =>
    "DEBUG:sendck.checker:sendcheck: " ++ f ++ " -> " ++ Text.ofInt n ++ " diagnostic(s)"

/-- What checking a function reports: nothing when the check is off or the
    function is malformed, else its start and how it ended. -/
def Func.events (f : Func) : Except CheckFault CheckResult → List Event
  | .error (.malformed _) => []
  | .error (.obstacle (.diverged _ bound)) =>
    [.started f.name f.blocks.size, .exceeded f.name bound]
  | .error (.obstacle _) => [.started f.name f.blocks.size]
  | .ok r =>
    match r.analysis with
    | none => []
    | some a =>
      [.started f.name f.blocks.size, .converged f.name a.evaluations,
        .checked f.name r.diagnostics.length]

end Sendability
