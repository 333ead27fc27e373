/-
  Partitions of names into regions.

  A `Partition` is a forest: every tracked name has a parent, and a name that
  is its own parent represents its region. `find` climbs to the representative
  and hangs every name it passes directly below it; the heavier of two trees
  stays on top when they are united, and the smaller name of two equally heavy
  ones, so the representative does not depend on the order of arguments.
  `detach` takes one name out of its region.

  Every look-up can fail: it names the untracked name that it met. The names
  are kept in the order in which they were first tracked.
-/
import Sendability.Ordering
import Sendability.IR.Basic

namespace Sendability

/-- A look-up met a name that is not tracked. -/
structure Untracked where
  name : Name
  deriving DecidableEq, Inhabited

/-- A partition of tracked names into regions: the parent of every name, and
    the number of members for every representative. -/
structure Partition where
  parents : Table Name Name := {}
  weights : Table Name Nat := {}
  deriving DecidableEq, Inhabited

namespace Partition

/-- The partition without names. -/
def empty : Partition := {}

/-- The tracked names, in the order in which they were first tracked. -/
def names (p : Partition) : List Name := p.parents.keys

/-- Whether a name is tracked. -/
def contains (p : Partition) (v : Name) : Bool := p.parents.contains v

/-- The number of tracked names. -/
def size (p : Partition) : Nat := p.parents.size

/-- Tracks a name in a region of its own, unless it is tracked already. -/
def add (p : Partition) (v : Name) : Partition :=
  if p.contains v then p else ⟨p.parents.insert v v, p.weights.insert v 1⟩

/-! ## Representatives -/

/-- The names from `v` up to its representative, which is given apart. The
    climb is bounded by `fuel` steps. -/
def climb (parents : Table Name Name) : Nat → Name → Except Untracked (List Name × Name)
  | 0, v => .ok ([], v)
  | fuel + 1, v =>
    match parents.get? v with
    | none => .error ⟨v⟩
    | some u =>
      if u = v then .ok ([], v)
      else
        match climb parents fuel u with
        | .error e => .error e
        | .ok (path, root) => .ok (v :: path, root)

/-- Hangs every name of a path directly below `root`. -/
def shorten (p : Partition) (path : List Name) (root : Name) : Partition :=
  { p with parents := path.foldl (fun t v => t.insert v root) p.parents }

/-- The representative of a name, and the partition with a shorter path to it. A
    path has no more names than are tracked. -/
def find (p : Partition) (v : Name) : Except Untracked (Name × Partition) :=
  match climb p.parents (p.size + 1) v with
  | .error e => .error e
  | .ok (path, root) => .ok (root, p.shorten path root)

/-- The representatives of a list of names. -/
def findAll (p : Partition) : List Name → Except Untracked (List Name × Partition)
  | [] => .ok ([], p)
  | v :: vs =>
    match p.find v with
    | .error e => .error e
    | .ok (r, p) =>
      match p.findAll vs with
      | .error e => .error e
      | .ok (rs, p) => .ok (r :: rs, p)

/-- Whether two names are in one region. -/
def sameRegion (p : Partition) (a b : Name) : Except Untracked (Bool × Partition) := do
  let (ra, p) ← p.find a
  let (rb, p) ← p.find b
  return (ra = rb, p)

/-! ## Uniting regions -/

/-- The number of members of the region that a representative stands for. -/
def weight (p : Partition) (root : Name) : Except Untracked Nat :=
  match p.weights.get? root with
  | some w => .ok w
  | none => .error ⟨root⟩

/-- The heavier of two representatives, and of two equally heavy ones the
    smaller name. -/
def heavier (p : Partition) (a b : Name) : Except Untracked Name := do
  let wa ← p.weight a
  let wb ← p.weight b
  return if wa < wb ∨ (wa = wb ∧ b < a) then b else a

/-- The heaviest of some representatives. -/
def heaviest (p : Partition) : Name → List Name → Except Untracked Name
  | a, [] => .ok a
  | a, b :: rest => do
    let c ← p.heavier a b
    p.heaviest c rest

/-- The number of members of some regions together. -/
def totalWeight (p : Partition) : List Name → Except Untracked Nat
  | [] => .ok 0
  | r :: rest => do
    let w ← p.weight r
    let total ← p.totalWeight rest
    return w + total

/-- Hangs some representatives below `top`, whose region then has `total`
    members. -/
def hang (p : Partition) (roots : List Name) (top : Name) (total : Nat) : Partition where
  parents := roots.foldl (fun t r => t.insert r top) p.parents
  weights := (roots.foldl (fun t r => t.erase r) p.weights).insert top total

/-- Unites the regions of some names; the result is their representative. -/
def union (p : Partition) (first : Name) (others : List Name) :
    Except Untracked (Name × Partition) := do
  let (r, p) ← p.find first
  let (rs, p) ← p.findAll others
  match distinct (r :: rs) with
  | [] | [_] => return (r, p)
  | roots => do
    let top ← p.heaviest r roots
    let total ← p.totalWeight roots
    return (top, p.hang roots top total)

/-! ## Regions and their members -/

/-- Sorts names into regions: each representative with its members, in order of
    first appearance. -/
def classesOf (p : Partition) :
    Table Name (List Name) → List Name → Except Untracked (Table Name (List Name) × Partition)
  | groups, [] => .ok (groups, p)
  | groups, v :: vs =>
    match p.find v with
    | .error e => .error e
    | .ok (r, p) => p.classesOf (groups.insert r ((groups.get? r).getD [] ++ [v])) vs

/-- Every representative with the members of its region. -/
def classes (p : Partition) : Except Untracked (Table Name (List Name) × Partition) :=
  p.classesOf {} p.names

/-- The names with the representative `root` among some names. -/
def membersOf (p : Partition) (root : Name) :
    List Name → Except Untracked (List Name × Partition)
  | [] => .ok ([], p)
  | v :: vs =>
    match p.find v with
    | .error e => .error e
    | .ok (r, p) =>
      match p.membersOf root vs with
      | .error e => .error e
      | .ok (ms, p) => .ok (if r = root then v :: ms else ms, p)

/-! ## Taking a name out of its region -/

/-- The least of some names. -/
def least : Name → List Name → Name
  | a, [] => a
  | a, b :: rest => least (if b < a then b else a) rest

/-- What became of the region that a name left: its representative before, and
    after if anything is left of it. -/
structure Detached where
  before : Name
  after : Option Name
  deriving DecidableEq, Inhabited

/-- Moves a name into a region of its own. The rest of its region keeps its
    representative, or gets the least of its names if the name was that. -/
def detach (p : Partition) (v : Name) : Except Untracked (Detached × Partition) := do
  let (old, p) ← p.find v
  let (rest, p) ← p.membersOf old (p.names.filter (· ≠ v))
  let _ ← p.weight old
  let parents := p.parents.insert v v
  let weights := (p.weights.erase old).insert v 1
  match rest with
  | [] => return (⟨old, none⟩, ⟨parents, weights⟩)
  | a :: others =>
    let new := if old = v then least a others else old
    return (⟨old, some new⟩,
      ⟨rest.foldl (fun t u => t.insert u new) parents, weights.insert new rest.length⟩)

end Partition

end Sendability
