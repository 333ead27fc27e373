/-
  Regions where control flow meets.

  The join of two states tracks the names of both and has names in one region
  as soon as one of the two does; a region is transferred if any region that
  went into it was, by the sites of all of them. `canonical` is what is left
  of a state when representatives and the order of values are forgotten; two
  states are the same when their canonical forms are.
-/
import Sendability.Region.State

namespace Sendability

/-! ## Joining -/

/-- Unites in `p` every name of a list with its representative in `q`. -/
def Partition.impose (p q : Partition) : List Name → Except Untracked Partition
  | [] => .ok p
  | v :: vs => do
    let (r, q) ← q.find v
    if r = v then p.impose q vs
    else
      let (_, p) ← p.union v [r]
      p.impose q vs

namespace Regions

/-- Merges records into the regions of the names that they are kept under. -/
def carryRecords (s : Regions) : List (Name × Record) → Except Untracked Regions
  | [] => .ok s
  | (v, r) :: rest =>
    if r.transferred then do
      let (root, s) ← s.find v
      carryRecords (s.put root ((s.recordAt root).merge r)) rest
    else carryRecords s rest

/-- The regions after a meeting of two ways. -/
def join (s t : Regions) : Except Untracked Regions := do
  let p := (s.names ++ t.names).foldl Partition.add Partition.empty
  let p ← p.impose s.partition s.names
  let p ← p.impose t.partition t.names
  carryRecords ⟨p, {}⟩ (s.records.entries ++ t.records.entries)

/-- The regions after a meeting of one or more ways, joined in order. -/
def joinAll : Regions → List Regions → Except Untracked Regions
  | s, [] => .ok s
  | s, t :: rest => do
    let s ← s.join t
    joinAll s rest

/-! ## Sameness -/

end Regions

/-- What counts of a site when states are compared: what tells it apart, and
    which values it was seen to hand over. -/
structure Fingerprint where
  block : Int
  op : Int
  callee : Name
  kind : Crossing
  source : Name
  values : List Name
  deriving DecidableEq, Inhabited

/-- What counts of a site. -/
def Site.fingerprint (s : Site) : Fingerprint :=
  ⟨s.point.block, s.point.op, s.callee, s.kind, s.source, sortText (distinct s.values)⟩

namespace Fingerprint

/-- The place of a kind of crossing in the order of fingerprints. -/
def rank : Crossing → Nat
  | .entering => 0
  | .sameDomain => 1
  | .spawning => 2

/-- The order of fingerprints: field by field. -/
def compare (a b : Fingerprint) : Ordering :=
  (Ord.compare a.block b.block).then <|
  (Ord.compare a.op b.op).then <|
  (Ord.compare a.callee b.callee).then <|
  (Ord.compare (rank a.kind) (rank b.kind)).then <|
  (Ord.compare a.source b.source).then <|
  List.compareLex Ord.compare a.values b.values

/-- Whether one fingerprint is not after another. -/
def le (a b : Fingerprint) : Bool := (a.compare b).isLE

end Fingerprint

/-- A region without its representative: the members in order, and what counts
    of its sites. -/
structure RegionView where
  members : List Name
  sites : List Fingerprint
  deriving DecidableEq, Inhabited

namespace Regions

/-- A region without its representative. -/
def viewOf (s : Regions) (root : Name) (members : List Name) : RegionView where
  members := sortText members
  sites := sortBy Fingerprint.le (distinct ((s.recordAt root).sites.map Site.fingerprint))

/-- A state without representatives and the order of values: its regions in the
    order of their members. -/
def canonical (s : Regions) : Except Untracked (List RegionView × Regions) := do
  let (groups, s) ← s.classes
  let views := groups.entries.map fun (root, members) => s.viewOf root members
  return (sortBy (fun a b => (List.compareLex Ord.compare a.members b.members).isLE) views, s)

/-- Whether two states are the same but for representatives and the order of
    values. -/
def same (s t : Regions) : Except Untracked Bool := do
  let (a, _) ← s.canonical
  let (b, _) ← t.canonical
  return a = b

/-! ## Display -/

/-- One region: its members in braces, and the points of its transfers. -/
def renderRegion (members : List Name) (r : Record) : Text :=
  let shown : Text := "\x7b" ++ Text.joined ", " (sortText members) ++ "\x7d"
  if r.transferred then
    shown ++ " transferred@" ++ Text.joined "," (r.sites.map fun s => s.point.render)
  else shown

/-- A state: its regions in the order of their representatives. -/
def render (s : Regions) : Except Untracked Text := do
  let (groups, s) ← s.classes
  let groups := sortBy (fun a b => decide (a.1 ≤ b.1)) groups.entries
  let parts := groups.map fun (root, members) => renderRegion members (s.recordAt root)
  return "TransferState(" ++ Text.joined " " parts ++ ")"

end Regions

end Sendability
