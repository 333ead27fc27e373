/-
  Reports: one diagnostic for each call that transferred a region.

  The diagnostic stands at the call, the cause; every access that the call
  made unsafe is a note under it. An access whose region was transferred by
  several calls is noted under each of them. Calls come in program order, and
  so do the notes, with one note for a value at a point.
-/
import Sendability.Diagnostic
import Sendability.Region.Site

namespace Sendability

/-- The code of race diagnostics. -/
def raceCode : Text := "E_SEND_RISKS_RACE"

/-- The phase of race diagnostics. -/
def checkPhase : Text := "sendcheck"

/-- Names in quotes, divided by commas. -/
def quotedNames (names : List Name) : Text :=
  Text.joined ", " (names.map fun n => "'" ++ n ++ "'")

/-- A word in the singular for one thing, else in the plural. -/
def plural (word : Text) (things : List Name) : Text :=
  if things.length = 1 then word else word ++ "s"

/-- The message at a call that transferred values. -/
def Site.message (s : Site) : Text :=
  let values := plural "value" s.values ++ " " ++ quotedNames s.values
  let types := plural "type" s.types ++ " " ++ quotedNames s.types
  let what := values ++ " of non-sendable " ++ types
  match s.kind with
  | .spawning =>
    "passing " ++ what ++ " to task-spawning call '" ++ s.callee ++ "' from '" ++ s.source ++
      "' risks causing data races"
  | .sameDomain | .entering =>
    let target : Text := match s.target.filter (!·.isEmpty) with
      | some t => "'" ++ t ++ "'"
      | none => "another isolation domain"
    "sending " ++ what ++ " from '" ++ s.source ++ "' to " ++ target ++ " via '" ++ s.callee ++
      "' risks causing data races"

/-- The message at an access that a call made unsafe. -/
def Access.message (a : Access) (s : Site) : Text :=
  let conflict :=
    a.kind.describe ++ " of '" ++ a.value ++ "' here could race with the use in '" ++ s.callee ++
      "'"
  if a.value ∈ s.values then conflict
  else conflict ++ " ('" ++ a.value ++ "' shares a region with " ++ quotedNames s.values ++ ")"

/-! ## Grouping -/

/-- The accesses under one site, each under its point and value. -/
structure Group where
  site : Site
  accesses : Table ((Int × Int) × Name) Access
  deriving DecidableEq, Inhabited

namespace Group

/-- Puts an access under a site. What was seen of the site is merged; of two
    accesses of a value at a point the first stays. -/
def add (groups : Table (Int × Int) Group) (a : Access) (s : Site) : Table (Int × Int) Group :=
  let key := (a.point.key, a.value)
  match groups.get? s.point.key with
  | none => groups.insert s.point.key ⟨s, Table.empty.insert key a⟩
  | some g =>
    let accesses := if g.accesses.contains key then g.accesses else g.accesses.insert key a
    groups.insert s.point.key ⟨g.site.merge s, accesses⟩

/-- The order of accesses under a site: by point, then by value. -/
def accessLe (a b : Access) : Bool :=
  if a.point.key = b.point.key then decide (a.value ≤ b.value) else a.point.le b.point

/-- The accesses of a group in order. -/
def sorted (g : Group) : List Access := sortBy accessLe g.accesses.values

end Group

/-- The sites of some accesses in program order, each with its accesses in
    order. -/
def groupAccesses (accesses : List Access) : List (Site × List Access) :=
  let groups := accesses.foldl (fun t a => a.sites.foldl (fun t s => Group.add t a s) t) Table.empty
  (sortBy (fun a b => a.site.point.le b.site.point) groups.values).map fun g => (g.site, g.sorted)

/-- The diagnostic for one site. -/
def siteDiagnostic (severity : Text) (site : Site) (accesses : List Access) : Diagnostic where
  message := site.message
  code := some raceCode
  phase := some checkPhase
  severity
  span := site.span
  notes := accesses.map fun a => ⟨a.message site, a.span⟩

/-- The diagnostics for some accesses, in the order of the calls. -/
def synthesize (severity : Text) (accesses : List Access) : List Diagnostic :=
  (groupAccesses accesses).map fun (site, group) => siteDiagnostic severity site group

end Sendability
