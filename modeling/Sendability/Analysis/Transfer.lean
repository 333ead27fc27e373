/-
  What operations do to regions.

  Sendable operands play no part: they are never tracked. Every operation goes
  in two steps. First each operand whose region was transferred before is an
  access, which changes nothing. Then the regions change: an operation unites
  what it may link, a definition starts a new region or joins the one it is
  built from, and a call that crosses into another domain marks the region of
  its operands.

  How a call crosses is asked once for every time the call is applied, after
  the regions were united, whether anything is tracked or not.
-/
import Sendability.Region.State
import Sendability.IR.Flow

namespace Sendability

namespace Regions

/-- The regions at the entry of a function: all non-sendable parameters share
    one region, since a caller may pass linked objects, and none of it is
    transferred. -/
def entry (f : Func) : Except Untracked Regions :=
  let params := (f.params.filter fun p => !p.sendable).map Value.name
  (params.foldl track empty).unite params

/-- The names of the non-sendable values of a list that are tracked, each
    once. -/
def tracked (s : Regions) (vs : List Value) : List Name :=
  distinct ((vs.filter fun v => !v.sendable && s.isTracked v.name).map Value.name)

/-! ## Accesses -/

/-- The accesses among some operands, and the regions after looking. -/
def accesses (s : Regions) (point : Point) (loc : Span) :
    List (Value × AccessKind) → Except Untracked (List Access × Regions)
  | [] => .ok ([], s)
  | (v, kind) :: rest =>
    if v.sendable then s.accesses point loc rest
    else do
      let (transferred, s) ← s.isTransferred v.name
      if transferred then
        let (sites, s) ← s.sitesFor v.name
        let (more, s) ← s.accesses point loc rest
        return (⟨point, v.name, v.type.name, kind, sites, loc⟩ :: more, s)
      else s.accesses point loc rest

/-- The accesses among some operands if they are watched for. -/
def watchedAccesses (s : Regions) (watch : Bool) (point : Point) (loc : Span)
    (operands : List (Value × AccessKind)) : Except Untracked (List Access × Regions) :=
  if watch then s.accesses point loc operands else .ok ([], s)

/-! ## Changes -/

/-- Defines a value in the region of the names it is built from, or in a region
    of its own if there are none. A name built from itself stays where it was;
    any other definition leaves the old region behind. -/
def define (s : Regions) (dest : Option Value) (source : List Name) : Except Untracked Regions :=
  match dest with
  | none => .ok s
  | some d =>
    if d.sendable then .ok s
    else do
      let s ← if d.name ∈ source then pure s else s.redefine d.name
      if source.isEmpty then return s
      else
        let (_, s) ← s.union d.name source
        return s

/-- Unites the tracked ones of some values and defines `dest` from them. -/
def build (s : Regions) (dest : Option Value) (parts : List Value) : Except Untracked Regions := do
  let source := s.tracked parts
  let s ← s.unite source
  s.define dest source

/-- The type of a name among some operands: that of the last of its name. -/
def typeAmong (operands : List Value) (name : Name) : Except Untracked Name :=
  match operands.reverse.find? (·.name = name) with
  | some v => .ok v.type.name
  | none => .error ⟨name⟩

/-- The types of some names among some operands, each type once. -/
def typesAmong (operands : List Value) (names : List Name) : Except Untracked (List Name) := do
  let types ← names.mapM (typeAmong operands)
  return distinct types

/-- Marks the region of the first of some names as transferred by a call. -/
def transfer (s : Regions) (f : Func) (c : Call) (kind : Crossing) (point : Point) :
    List Name → Except Untracked Regions
  | [] => .ok s
  | v :: vs =>
    if kind.transfers then do
      let types ← typesAmong c.operands (v :: vs)
      s.mark v
        { point, callee := c.callee, kind, values := v :: vs, types, source := f.domain
          target := c.targetDomain kind, span := c.loc }
    else .ok s

/-- The regions after an operation; `kind` tells how a call crosses. -/
def apply (s : Regions) (f : Func) (kind : Crossing) (point : Point) : Op → Except Untracked Regions
  | .init dest args _ => s.build (some dest) args
  | .load dest base _ _ => s.build (some dest) [base]
  | .copy dest src _ => s.build (some dest) [src]
  | .store base _ value _ => s.build none [base, value]
  | .closure dest captures _ => s.build (some dest) captures
  | .call c => do
    let source := s.tracked c.operands
    let s ← s.build c.dest c.operands
    s.transfer f c kind point source
  | .use .. => .ok s

end Regions

/-! ## Blocks -/

/-- The outcome of running over a part of a block: the regions after it, the
    accesses met and the state of the classifier. -/
structure Passage (σ : Type) where
  regions : Regions
  accesses : List Access
  memory : σ

variable {σ : Type}

/-- How an operation crosses: calls are put to the classifier. -/
def Classifier.crossing (c : Classifier σ) (memory : σ) (f : Func) : Op → Crossing × σ
  | .call call => c.classify memory f call
  | _ => (.sameDomain, memory)

/-- Runs over one operation. -/
def Func.passOp (f : Func) (c : Classifier σ) (watch : Bool) (memory : σ) (s : Regions)
    (point : Point) (op : Op) : Except Untracked (Passage σ) := do
  let (accesses, s) ← s.watchedAccesses watch point op.loc op.operands
  let (kind, memory) := c.crossing memory f op
  let s ← s.apply f kind point op
  return ⟨s, accesses, memory⟩

/-- Runs over a terminator, which only uses its operands. -/
def Regions.passTerminator (s : Regions) (watch : Bool) (point : Point) (t : Terminator) :
    Except Untracked (List Access × Regions) :=
  s.watchedAccesses watch point t.loc t.operands

/-- Runs over the operations of a block from number `i` on. -/
def Func.passOps (f : Func) (c : Classifier σ) (watch : Bool) (index : Int) (label : Name) :
    Int → σ → Regions → List Op → Except Untracked (Passage σ)
  | _, memory, s, [] => .ok ⟨s, [], memory⟩
  | i, memory, s, op :: rest => do
    let p ← f.passOp c watch memory s ⟨index, i, label⟩ op
    let q ← f.passOps c watch index label (i + 1) p.memory p.regions rest
    return { q with accesses := p.accesses ++ q.accesses }

/-- Runs over a block, the terminator being one operation past the last. -/
def Func.passBlock (f : Func) (c : Classifier σ) (watch : Bool) (memory : σ) (s : Regions)
    (index : Int) (b : Block) : Except Untracked (Passage σ) := do
  let p ← f.passOps c watch index b.name 0 memory s b.ops
  match b.terminator with
  | none => return p
  | some t =>
    let (accesses, s) ← p.regions.passTerminator watch ⟨index, b.ops.length, b.name⟩ t
    return { p with regions := s, accesses := p.accesses ++ accesses }

end Sendability
