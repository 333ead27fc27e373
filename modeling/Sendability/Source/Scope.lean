/-
  The types of the values of a function.

  The parameters and every assignment say what type a name has. An assignment
  without a written type takes it from what is built, or, for a copy, from the
  source of the copy, which may itself be a copy further down: such copies are
  resolved round by round, as long as a round resolves one.
-/
import Sendability.Source.Fault
import Sendability.Source.Tree

namespace Sendability.Source

/-- The declared types. -/
abbrev Types := Table Name TypeInfo

/-- The types of the values defined so far. -/
abbrev Scope := Table Name TypeInfo

/-- The type that a name stands for; one that is not declared is not sendable. -/
def Types.typeOf (types : Types) (name : Name) : TypeInfo :=
  (types.get? name).getD { name }

/-- The name of the type of closures. -/
def closureTypeName : Name := "Closure"

/-- Adds a definition, unless the name has another type already. -/
def Scope.define (scope : Scope) (t : Token) (type : TypeInfo) : Except Fault Scope :=
  match scope.get? t.text with
  | some was =>
    if was = type then .ok (scope.insert t.text type)
    else .error (.redefined t type.name was.name)
  | none => .ok (scope.insert t.text type)

/-- The value that a token names. -/
def Scope.value (scope : Scope) (t : Token) : Except Fault Value :=
  match scope.get? t.text with
  | some type => .ok ⟨t.text, type⟩
  | none => .error (.undefinedValue t)

/-- The values of a list of tokens. -/
def Scope.valuesOf (scope : Scope) : List Token → Except Fault (List Value)
  | [] => .ok []
  | t :: ts => do
    let v ← scope.value t
    let vs ← scope.valuesOf ts
    return v :: vs

/-- The value of an optional token. -/
def Scope.value? (scope : Scope) : Option Token → Except Fault (Option Value)
  | none => .ok none
  | some t => return some (← scope.value t)

/-- A copy whose type is that of its source. -/
structure PendingCopy where
  dest : Token
  src : Token
  deriving DecidableEq, Inhabited

/-- What an assignment says about the type of its destination: a definition,
    or a copy to be resolved. -/
def defineAssign (types : Types) (scope : Scope) (pending : List PendingCopy)
    (dest : Token) (written : Option Token) (rhs : Rhs) :
    Except Fault (Scope × List PendingCopy) :=
  let annotated := written.map fun t => types.typeOf t.text
  let add (type : TypeInfo) : Except Fault (Scope × List PendingCopy) := do
    let scope ← scope.define dest type
    return (scope, pending)
  match rhs, annotated with
  | .init t _, none => add (types.typeOf t.text)
  | .init t _, some a =>
    let built := types.typeOf t.text
    if a = built then add built else .error (.annotationMismatch dest a.name built.name)
  | .copy src, none => .ok (scope, pending ++ [⟨dest, src⟩])
  | .closure _, none => add (types.typeOf closureTypeName)
  | .load .., none => .error (.untypedLoad dest)
  | .call _, none => .error (.untypedCall dest)
  | .copy _, some a | .closure _, some a | .load .., some a | .call _, some a => add a

/-- The definitions of a list of statements. -/
def defineStmts (types : Types) :
    Scope → List PendingCopy → List (Located Stmt) → Except Fault (Scope × List PendingCopy)
  | scope, pending, [] => .ok (scope, pending)
  | scope, pending, s :: rest =>
    match s.node with
    | .assign dest written rhs => do
      let (scope, pending) ← defineAssign types scope pending dest written rhs
      defineStmts types scope pending rest
    | .store .. | .call _ | .use _ | .write _ => defineStmts types scope pending rest

/-- One round over the copies that wait for a type: those whose source has one
    are defined, the others wait on. -/
def resolveRound : Scope → List PendingCopy → Except Fault (Scope × List PendingCopy)
  | scope, [] => .ok (scope, [])
  | scope, c :: rest =>
    match scope.get? c.src.text with
    | some type => do
      let scope ← scope.define c.dest type
      resolveRound scope rest
    | none => do
      let (scope, waiting) ← resolveRound scope rest
      return (scope, c :: waiting)

/-- Resolves the waiting copies round by round. When a round resolves none, the
    first copy that waits is blamed. -/
def resolveCopies (scope : Scope) (pending : List PendingCopy) : Except Fault Scope :=
  match resolveRound scope pending with
  | .error e => .error e
  | .ok (scope, []) => .ok scope
  | .ok (scope, c :: waiting) =>
    if waiting.length + 1 < pending.length then resolveCopies scope (c :: waiting)
    else .error (.unresolvedCopy c.dest c.src)
termination_by pending.length

/-- The parameters of a function, defined in order. -/
def defineParams (types : Types) :
    Scope → List ParamTree → Except Fault (Scope × List Value)
  | scope, [] => .ok (scope, [])
  | scope, p :: rest =>
    if scope.contains p.name.text then .error (.duplicateParam p.name)
    else do
      let type := types.typeOf p.type.text
      let scope ← scope.define p.name type
      let (scope, vs) ← defineParams types scope rest
      return (scope, ⟨p.name.text, type⟩ :: vs)

/-- The parameters of a function and the types of all its values. -/
def FuncTree.scope (types : Types) (f : FuncTree) : Except Fault (List Value × Scope) := do
  let (scope, params) ← defineParams types {} f.params
  let (scope, pending) ← defineStmts types scope [] (f.blocks.flatMap BlockTree.stmts)
  let scope ← resolveCopies scope pending
  return (params, scope)

end Sendability.Source
