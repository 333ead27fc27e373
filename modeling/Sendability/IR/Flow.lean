/-
  The control-flow graph of a function and the values it defines.

  Edges run from a block to the successors of its terminator. Predecessors
  are listed in program order, each once, whatever the number of edges.
-/
import Sendability.IR.Basic
import Sendability.Ordering

namespace Sendability

/-- The blocks at which control can go on after a block. -/
def Block.successors (b : Block) : List Name :=
  match b.terminator with
  | some t => t.successors
  | none => []

/-- The operands of every operation of a block in turn, and of its terminator
    when it has one. -/
def Block.operandLists (b : Block) : List (List (Value × AccessKind)) :=
  b.ops.map Op.operands ++ b.terminator.toList.map Terminator.operands

namespace Func

/-- The blocks with an edge to `target`, in program order. -/
def predecessors (f : Func) (target : Name) : List Name :=
  (f.blocks.entries.filter fun (_, b) => b.successors.contains target).map Prod.fst

/-- The place of a block in program order. -/
def blockIndex? (f : Func) (name : Name) : Option Nat :=
  f.blocks.keys.findIdx? (· = name)

/-- Every definition of a value: the parameters, then the results of the
    operations in program order. -/
def definitions (f : Func) : List Value :=
  f.params ++ f.blocks.values.flatMap fun b => b.ops.filterMap Op.dest?

/-- The names defined as non-sendable values, each once. -/
def regionNames (f : Func) : List Name :=
  distinct ((f.definitions.filter fun v => !v.sendable).map Value.name)

/-- The number of calls in a function. -/
def callCount (f : Func) : Nat :=
  (f.blocks.values.flatMap Block.ops).countP fun
    | .call _ => true
    | _ => false

end Func

end Sendability
