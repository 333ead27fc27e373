/-
  The conditions on a function that the analysis relies on.

  `Func.validate` looks for the first violation in a fixed order: the entry
  block, then the types of the definitions, then block by block the name,
  the terminator, the operands and the jump targets. A violation is a fault
  of whatever built the function, not a finding about the program in it.
-/
import Sendability.IR.Flow

namespace Sendability

/-- What is wrong with the structure of a function. -/
inductive Malformed where
  /-- The entry block does not exist. -/
  | noEntry (function entry : Name) (loc : Span)
  /-- One name is defined with two types. -/
  | conflictingTypes (value first second : Name) (loc : Span)
  /-- A block stands in the table under another name. -/
  | misnamed (block key : Name)
  /-- A block has no terminator. -/
  | noTerminator (block : Name) (loc : Span)
  /-- A value is used that no definition names. -/
  | undefinedValue (value block : Name) (loc : Span)
  /-- A terminator names a block that does not exist. -/
  | unknownTarget (block target : Name) (loc : Span)
  deriving DecidableEq, Inhabited

namespace Malformed

/-- The text of a violation. -/
def message : Malformed → Text
  | .noEntry f e _ => "function '" ++ f ++ "' has no entry block '" ++ e ++ "'"
  | .conflictingTypes v a b _ =>
    "value '" ++ v ++ "' defined with conflicting types '" ++ a ++ "' and '" ++ b ++ "'"
  | .misnamed b k => "block '" ++ b ++ "' registered under name '" ++ k ++ "'"
  | .noTerminator b _ => "block '" ++ b ++ "' has no terminator"
  | .undefinedValue v b _ => "use of undefined value '" ++ v ++ "' in block '" ++ b ++ "'"
  | .unknownTarget b t _ => "block '" ++ b ++ "' jumps to unknown block '" ++ t ++ "'"

/-- The place of a violation; a block under another name has none. -/
def span : Malformed → Span
  | .noEntry _ _ l | .conflictingTypes _ _ _ l | .noTerminator _ l | .undefinedValue _ _ l
  | .unknownTarget _ _ l => l
  | .misnamed .. => {}

end Malformed

/-- The types of the defined names, or the first definition whose type differs
    from the one before it. -/
def collectTypes (loc : Span) :
    Table Name TypeInfo → List Value → Except Malformed (Table Name TypeInfo)
  | defined, [] => .ok defined
  | defined, v :: vs =>
    match defined.get? v.name with
    | some t =>
      if t = v.type then collectTypes loc (defined.insert v.name v.type) vs
      else .error (.conflictingTypes v.name t.name v.type.name loc)
    | none => collectTypes loc (defined.insert v.name v.type) vs

/-- The first operand that is not defined. -/
def checkOperands (defined : Table Name TypeInfo) (block : Name) (loc : Span) :
    List (Value × AccessKind) → Except Malformed Unit
  | [] => .ok ()
  | (v, _) :: rest =>
    if defined.contains v.name then checkOperands defined block loc rest
    else .error (.undefinedValue v.name block loc)

/-- The first operation with an operand that is not defined. -/
def checkOps (defined : Table Name TypeInfo) (block : Name) : List Op → Except Malformed Unit
  | [] => .ok ()
  | op :: rest => do
    checkOperands defined block op.loc op.operands
    checkOps defined block rest

/-- The first jump to a block that is not in the table. -/
def checkTargets (blocks : Table Name Block) (block : Name) (loc : Span) :
    List Name → Except Malformed Unit
  | [] => .ok ()
  | t :: rest =>
    if blocks.contains t then checkTargets blocks block loc rest
    else .error (.unknownTarget block t loc)

namespace Func

/-- The conditions on one block under its key. -/
def validateBlock (f : Func) (defined : Table Name TypeInfo) (key : Name) (b : Block) :
    Except Malformed Unit :=
  if b.name ≠ key then .error (.misnamed b.name key)
  else match b.terminator with
    | none => .error (.noTerminator key f.loc)
    | some t => do
      checkOps defined key b.ops
      checkOperands defined key t.loc t.operands
      checkTargets f.blocks key t.loc t.successors

/-- The conditions on a list of blocks. -/
def validateBlocks (f : Func) (defined : Table Name TypeInfo) :
    List (Name × Block) → Except Malformed Unit
  | [] => .ok ()
  | (key, b) :: rest => do
    f.validateBlock defined key b
    f.validateBlocks defined rest

/-- The first violation of the conditions that the analysis relies on. -/
def validate (f : Func) : Except Malformed Unit :=
  if f.blocks.contains f.entry then do
    let defined ← collectTypes f.loc {} f.definitions
    f.validateBlocks defined f.blocks.entries
  else .error (.noEntry f.name f.entry f.loc)

end Func

end Sendability
