/-
  Regions at a program point and the transfers recorded for them.

  `Regions` is a partition of the tracked names together with a record for
  each region that was transferred, kept under the representative. Regions
  are united and marked; the one way for a name to leave its region is a new
  definition, which leaves the old region and its record to the other members.

  Queries answer and hand back the state they have looked at, in which paths
  to representatives may have become shorter.
-/
import Sendability.Region.Partition
import Sendability.Region.Site

namespace Sendability

/-- The regions at a program point. -/
structure Regions where
  partition : Partition := {}
  records : Table Name Record := {}
  deriving DecidableEq, Inhabited

namespace Regions

/-- No name is tracked. -/
def empty : Regions := {}

/-- The tracked names, in the order in which they were first tracked. -/
def names (s : Regions) : List Name := s.partition.names

/-- Whether a name is tracked. -/
def isTracked (s : Regions) (v : Name) : Bool := s.partition.contains v

/-! ## Queries -/

/-- The representative of a name. -/
def find (s : Regions) (v : Name) : Except Untracked (Name × Regions) :=
  match s.partition.find v with
  | .error e => .error e
  | .ok (r, p) => .ok (r, { s with partition := p })

/-- Whether two names are in one region. -/
def sameRegion (s : Regions) (a b : Name) : Except Untracked (Bool × Regions) := do
  let (same, p) ← s.partition.sameRegion a b
  return (same, { s with partition := p })

/-- The record kept under a name. -/
def recordAt (s : Regions) (root : Name) : Record := (s.records.get? root).getD Record.empty

/-- The record of the region of a name. -/
def recordFor (s : Regions) (v : Name) : Except Untracked (Record × Regions) :=
  match s.find v with
  | .error e => .error e
  | .ok (r, s) => .ok (s.recordAt r, s)

/-- Whether a name is tracked and its region was transferred. -/
def isTransferred (s : Regions) (v : Name) : Except Untracked (Bool × Regions) :=
  if s.isTracked v then
    match s.recordFor v with
    | .error e => .error e
    | .ok (r, s) => .ok (r.transferred, s)
  else .ok (false, s)

/-- The sites that transferred the region of a name; none for a name that is
    not tracked. -/
def sitesFor (s : Regions) (v : Name) : Except Untracked (List Site × Regions) :=
  if s.isTracked v then
    match s.recordFor v with
    | .error e => .error e
    | .ok (r, s) => .ok (r.sites, s)
  else .ok ([], s)

/-- Every representative with the members of its region. -/
def classes (s : Regions) : Except Untracked (Table Name (List Name) × Regions) := do
  let (groups, p) ← s.partition.classes
  return (groups, { s with partition := p })

/-! ## Changes -/

/-- Tracks a name in a region of its own, unless it is tracked already. -/
def track (s : Regions) (v : Name) : Regions := { s with partition := s.partition.add v }

/-- Keeps a record under a name, whatever the name. -/
def put (s : Regions) (root : Name) (r : Record) : Regions :=
  { s with records := s.records.insert root r }

/-- Starts a new definition of a name in a region of its own. The region it
    leaves keeps its other members and its record. -/
def redefine (s : Regions) (v : Name) : Except Untracked Regions :=
  if s.isTracked v then do
    let (d, p) ← s.partition.detach v
    let records := s.records.erase d.before
    match s.records.get? d.before, d.after with
    | some r, some new => return ⟨p, records.insert new r⟩
    | _, _ => return ⟨p, records⟩
  else .ok (s.track v)

/-- Takes the records under some names out and merges them in turn. -/
def takeRecords (records : Table Name Record) (acc : Record) :
    List Name → Record × Table Name Record
  | [] => (acc, records)
  | v :: vs =>
    match records.get? v with
    | some r => takeRecords (records.erase v) (acc.merge r) vs
    | none => takeRecords records acc vs

/-- Unites the regions of some names and merges their records, in the order of
    the names they were kept under. -/
def union (s : Regions) (first : Name) (others : List Name) :
    Except Untracked (Name × Regions) := do
  let (olds, p) ← s.partition.findAll (first :: others)
  let (root, p) ← p.union first others
  let (merged, records) := takeRecords s.records Record.empty (sortText (distinct olds))
  if merged.transferred then return (root, ⟨p, records.insert root merged⟩)
  else return (root, ⟨p, records⟩)

/-- Unites the regions of a list of names; a list of one changes nothing. -/
def unite (s : Regions) : List Name → Except Untracked Regions
  | [] | [_] => .ok s
  | a :: rest => do
    let (_, s) ← s.union a rest
    return s

/-- Records that the region of a name was transferred at a site. -/
def mark (s : Regions) (v : Name) (site : Site) : Except Untracked Regions := do
  let (r, s) ← s.find v
  return s.put r ((s.recordAt r).withSite site)

end Regions

end Sendability
