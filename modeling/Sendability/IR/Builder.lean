/-
  Building a function step by step.

  A `Draft` is a function under construction: operations go to the current
  block, a block is made when it is first opened, and the first block is the
  entry. Values are named, and a name means its latest definition. A block
  without a terminator returns.
-/
import Sendability.IR.Basic

namespace Sendability

/-- A function under construction. -/
structure Draft where
  func : Func
  current : Name
  values : Table Name Value
  deriving DecidableEq, Inhabited

/-- A step of a construction. Values are given by name. -/
inductive Draft.Step where
  | block (name : Name)
  | init (name : Name) (args : List Name) (type : TypeInfo)
  | load (name base : Name) (type : TypeInfo)
  | copy (name src : Name)
  | store (base value : Name)
  | closure (name : Name) (captures : List Name) (type : TypeInfo)
  | call (callee : Name) (args : List Name) (result : Option Name) (type : TypeInfo)
      (receiver : Option Name) (domain : Option Name) (spawns : Bool)
  | use (value : Name) (kind : AccessKind)
  | goto (target : Name)
  | branch (targets : List Name) (cond : Option Name)
  | ret (value : Option Name)
  | throw (value : Option Name) (handler : Option Name)
  deriving DecidableEq, Inhabited

/-- A step names a value that nothing has defined. -/
structure UnknownValue where
  name : Name
  deriving DecidableEq, Inhabited

namespace Draft

/-- The type of built values when a step gives none. -/
def boxType : TypeInfo := { name := "Box" }

/-- The type of closures when a step gives none. -/
def closureType : TypeInfo := { name := "Closure" }

/-- The field that loads and stores of a draft go through. -/
def fieldName : Name := "f"

/-- Makes a block current, adding it when it is new. -/
def openBlock (d : Draft) (name : Name) : Draft :=
  if d.func.blocks.contains name then { d with current := name }
  else
    let blocks := d.func.blocks.insert name { name }
    let entry := if blocks.size = 1 then name else d.func.entry
    { d with func := { d.func with blocks, entry }, current := name }

/-- A function with one empty block named `entry`. -/
def start (name : Name := "f") (domain : Name := "main") (params : List Value := []) : Draft :=
  let func : Func := { name, params, domain }
  let values := Table.ofList (params.map fun p => (p.name, p))
  Draft.openBlock { func, current := "", values } "entry"

/-- Changes the current block. -/
def editBlock (d : Draft) (g : Block → Block) : Draft :=
  match d.func.blocks.get? d.current with
  | some b => { d with func := { d.func with blocks := d.func.blocks.insert d.current (g b) } }
  | none => d

/-- Adds an operation to the current block and notes what it defines. -/
def emit (d : Draft) (op : Op) : Draft :=
  let d := d.editBlock fun b => { b with ops := b.ops ++ [op] }
  match op.dest? with
  | some v => { d with values := d.values.insert v.name v }
  | none => d

/-- Gives the current block its terminator. -/
def terminate (d : Draft) (t : Terminator) : Draft :=
  d.editBlock fun b => { b with terminator := some t }

/-- The latest definition of a name. -/
def value (d : Draft) (name : Name) : Except UnknownValue Value :=
  match d.values.get? name with
  | some v => .ok v
  | none => .error ⟨name⟩

/-- The latest definition of a name, if a name is given. -/
def value? (d : Draft) : Option Name → Except UnknownValue (Option Value)
  | none => .ok none
  | some n => return some (← d.value n)

/-- Carries out one step. -/
def step (d : Draft) : Step → Except UnknownValue Draft
  | .block name => .ok (d.openBlock name)
  | .init name args type => do
    let args ← args.mapM d.value
    return d.emit (.init ⟨name, type⟩ args {})
  | .load name base type => do
    let base ← d.value base
    return d.emit (.load ⟨name, type⟩ base fieldName {})
  | .copy name src => do
    let src ← d.value src
    return d.emit (.copy ⟨name, src.type⟩ src {})
  | .store base value => do
    let base ← d.value base
    let value ← d.value value
    return d.emit (.store base fieldName value {})
  | .closure name captures type => do
    let captures ← captures.mapM d.value
    return d.emit (.closure ⟨name, type⟩ captures {})
  | .call callee args result type receiver domain spawns => do
    let args ← args.mapM d.value
    let receiver ← d.value? receiver
    let dest := result.map (⟨·, type⟩)
    return d.emit (.call { callee, args, dest, receiver, domain, spawns })
  | .use value kind => do
    let v ← d.value value
    return d.emit (.use v kind {})
  | .goto target => .ok (d.terminate (.goto target {}))
  | .branch targets cond => do
    let cond ← d.value? cond
    return d.terminate (.branch targets cond {})
  | .ret value => do
    let v ← d.value? value
    return d.terminate (.ret v {})
  | .throw value handler => do
    let v ← d.value? value
    return d.terminate (.throw v handler {})

/-- Carries out a list of steps. -/
def steps (d : Draft) (l : List Step) : Except UnknownValue Draft := l.foldlM step d

/-- The finished function: blocks left open return. -/
def build (d : Draft) : Func :=
  let close (b : Block) : Block :=
    if b.terminator.isSome then b else { b with terminator := some (.ret none {}) }
  { d.func with blocks := d.func.blocks.mapValues close }

end Draft

end Sendability
