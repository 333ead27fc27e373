/-
  The program representation that the checker works on.

  A function is a table of basic blocks; a block is a list of operations and
  one terminator. Values are names with a type, and a type says whether its
  values may be shared between isolation domains. Operations carry the
  isolation facts that a front end found out about them; nothing here gives
  them a meaning.
-/
import Sendability.Span
import Sendability.Table

namespace Sendability

/-- Names of values, types, domains, blocks, fields and functions. -/
abbrev Name := Text

/-- A named type, and whether its values may cross between domains. -/
structure TypeInfo where
  name : Name
  sendable : Bool := false
  deriving DecidableEq, Inhabited

/-- A value of a function: what the name stands for is decided by its
    definitions, and its type is the same at all of them. -/
structure Value where
  name : Name
  type : TypeInfo
  deriving DecidableEq, Inhabited

/-- Whether a value may cross between domains. -/
def Value.sendable (v : Value) : Bool := v.type.sendable

/-- How an operation or terminator uses one of its operands. -/
inductive AccessKind where
  | read
  | write
  | argument
  | capture
  | returned
  | thrown
  | condition
  deriving DecidableEq, Inhabited

/-- The words for a use in messages. -/
def AccessKind.describe : AccessKind → Text
  | .read => "read"
  | .write => "write"
  | .argument => "use as call argument"
  | .capture => "closure capture"
  | .returned => "return"
  | .thrown => "throw"
  | .condition => "branch on value"

/-- A call. `domain` is the domain that the callee runs in, where none means
    the caller's own; `spawns` marks a call that schedules concurrent work,
    whatever the domain. -/
structure Call where
  callee : Name
  args : List Value := []
  dest : Option Value := none
  receiver : Option Value := none
  domain : Option Name := none
  spawns : Bool := false
  loc : Span := {}
  deriving DecidableEq, Inhabited

/-- The values handed to a call: the receiver first, then the arguments. -/
def Call.operands (c : Call) : List Value := c.receiver.toList ++ c.args

/-- An operation of a block. -/
inductive Op where
  /-- Builds `dest`, which may refer to the arguments. -/
  | init (dest : Value) (args : List Value) (loc : Span)
  /-- Reads a field of `base`. -/
  | load (dest base : Value) (field : Name) (loc : Span)
  /-- Gives a value a second name. -/
  | copy (dest src : Value) (loc : Span)
  /-- Writes `value` into a field of `base`. -/
  | store (base : Value) (field : Name) (value : Value) (loc : Span)
  /-- Builds a closure over the captured values. -/
  | closure (dest : Value) (captures : List Value) (loc : Span)
  /-- Calls a function. -/
  | call (call : Call)
  /-- Reads or writes a value and does nothing else. -/
  | use (value : Value) (kind : AccessKind) (loc : Span)
  deriving DecidableEq, Inhabited

/-- The end of a block. -/
inductive Terminator where
  /-- Goes on at another block. -/
  | goto (target : Name) (loc : Span)
  /-- Goes on at one of several blocks; `cond` is the value looked at. -/
  | branch (targets : List Name) (cond : Option Value) (loc : Span)
  /-- Leaves the function, perhaps with a value. -/
  | ret (value : Option Value) (loc : Span)
  /-- Leaves the normal course: to the handler if there is one, else out of
      the function. -/
  | throw (value : Option Value) (handler : Option Name) (loc : Span)
  /-- Is never passed. -/
  | unreachable (loc : Span)
  deriving DecidableEq, Inhabited

/-- A list of operations and the terminator after them. -/
structure Block where
  name : Name
  ops : List Op := []
  terminator : Option Terminator := none
  deriving DecidableEq, Inhabited

/-- A function: its parameters, the domain that it runs in, and its blocks in
    program order under their names. -/
structure Func where
  name : Name
  params : List Value := []
  domain : Name := "nonisolated"
  blocks : Table Name Block := {}
  entry : Name := "entry"
  loc : Span := {}
  deriving DecidableEq, Inhabited

/-- Functions that are checked one by one, with the types declared for them. -/
structure Program where
  functions : List Func := []
  types : Table Name TypeInfo := {}
  path : Option Text := none
  deriving DecidableEq, Inhabited

/-! ## What an operation uses and defines -/

namespace Op

/-- The value that an operation defines. -/
def dest? : Op → Option Value
  | .init d .. | .load d .. | .copy d .. | .closure d .. => some d
  | .call c => c.dest
  | .store .. | .use .. => none

/-- The values that an operation uses, in order, and how. -/
def operands : Op → List (Value × AccessKind)
  | .init _ args _ => args.map (·, .argument)
  | .load _ base _ _ => [(base, .read)]
  | .copy _ src _ => [(src, .read)]
  | .store base _ value _ => [(base, .write), (value, .read)]
  | .closure _ captures _ => captures.map (·, .capture)
  | .call c => c.operands.map (·, .argument)
  | .use v kind _ => [(v, kind)]

/-- The place of an operation in the source. -/
def loc : Op → Span
  | .init _ _ l | .load _ _ _ l | .copy _ _ l | .store _ _ _ l | .closure _ _ l | .use _ _ l => l
  | .call c => c.loc

end Op

namespace Terminator

/-- The value that a terminator uses, and how. -/
def operands : Terminator → List (Value × AccessKind)
  | .goto .. | .unreachable _ => []
  | .branch _ cond _ => cond.toList.map (·, .condition)
  | .ret value _ => value.toList.map (·, .returned)
  | .throw value _ _ => value.toList.map (·, .thrown)

/-- The place of a terminator in the source. -/
def loc : Terminator → Span
  | .goto _ l | .branch _ _ l | .ret _ l | .throw _ _ l | .unreachable l => l

/-- The blocks at which control can go on, as the terminator lists them. -/
def successors : Terminator → List Name
  | .goto target _ => [target]
  | .branch targets _ _ => targets
  | .throw _ handler _ => handler.toList
  | .ret .. | .unreachable _ => []

end Terminator

end Sendability
