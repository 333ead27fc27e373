/-
  Program points, transfer sites and transfer records.

  A site is a call that handed a region to another domain, with the values
  that it handed over. It is known by its point: when the analysis comes back
  to a call with more operands, `Site.merge` folds what was seen into one
  site. A `Record` lists the sites of one region in program order, one for
  each point.
-/
import Sendability.Isolation
import Sendability.Ordering

namespace Sendability

/-- A place in a function: the number of its block in program order and the
    number of the operation in the block, the terminator coming after the last
    one. The name of the block is carried along for display. -/
structure Point where
  block : Int
  op : Int
  label : Name := ""
  deriving DecidableEq, Inhabited

namespace Point

/-- What tells points apart. -/
def key (p : Point) : Int × Int := (p.block, p.op)

/-- Points come in program order. -/
def le (p q : Point) : Bool := p.block < q.block || (p.block = q.block && p.op ≤ q.op)

/-- A point as messages show it. -/
def render (p : Point) : Text := p.label ++ "#" ++ Text.ofInt p.op

end Point

/-- A call that transferred a region, and the values and types it was seen to
    hand over. -/
structure Site where
  point : Point
  callee : Name
  kind : Crossing
  values : List Name
  types : List Name
  source : Name
  target : Option Name := none
  span : Span := {}
  deriving DecidableEq, Inhabited

namespace Site

/-- What tells sites apart: values and types do not. -/
def key (s : Site) : (Int × Int) × Name × Crossing × Name :=
  (s.point.key, s.callee, s.kind, s.source)

/-- Adds what another visit to the same call saw: its values and types that are
    new here come last. -/
def merge (s t : Site) : Site :=
  if t.values = s.values ∧ t.types = s.types then s
  else
    { s with
      values := s.values ++ t.values.filter (· ∉ s.values)
      types := s.types ++ t.types.filter (· ∉ s.types) }

end Site

/-- The transfer sites of one region. -/
structure Record where
  sites : List Site := []
  deriving DecidableEq, Inhabited

namespace Record

/-- The record of a region that was not transferred. -/
def empty : Record := {}

/-- Whether a region was transferred. -/
def transferred (r : Record) : Bool := !r.sites.isEmpty

/-- The sites after one more is placed at its point; the last one counts. -/
def place (sites : Table (Int × Int) Site) (s : Site) : Table (Int × Int) Site :=
  sites.insert s.point.key s

/-- The sites after one more is merged into the one at its point. -/
def absorb (sites : Table (Int × Int) Site) (s : Site) : Table (Int × Int) Site :=
  match sites.get? s.point.key with
  | some t => sites.insert s.point.key (t.merge s)
  | none => sites.insert s.point.key s

/-- The sites of two records, merged point by point and in program order. A
    record without sites leaves the other as it is. -/
def merge (r s : Record) : Record :=
  if s.sites.isEmpty then r
  else if r.sites.isEmpty then s
  else
    let mine := r.sites.foldl place {}
    let all := s.sites.foldl absorb mine
    ⟨sortBy (fun a b => a.point.le b.point) all.values⟩

/-- A record with one more site. -/
def withSite (r : Record) (s : Site) : Record := r.merge ⟨[s]⟩

end Record

/-- A use of a value whose region was transferred before, and by which sites. -/
structure Access where
  point : Point
  value : Name
  type : Name
  kind : AccessKind
  sites : List Site
  span : Span := {}
  deriving DecidableEq, Inhabited

end Sendability
