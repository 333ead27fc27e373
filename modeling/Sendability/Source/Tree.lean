/-
  Syntax trees of the textual program form.

  Names and labels are kept as tokens, so that a fault found later can point
  at them. Statements, terminators and functions know the place of their
  tokens.
-/
import Sendability.Source.Rule

namespace Sendability.Source

/-- An attribute of a call: the domain it runs in, or that it spawns a task. -/
inductive CallAttr where
  | onDomain (domain : Token)
  | spawn
  deriving DecidableEq, Inhabited

/-- A call: the segments of the callee, the arguments and the attributes. -/
structure CallExpr where
  callee : Token
  fields : List Token
  args : List Token
  attrs : List CallAttr
  deriving DecidableEq, Inhabited

/-- What stands after the equal sign of an assignment. -/
inductive Rhs where
  | init (type : Token) (args : List Token)
  | load (base field : Token)
  | copy (src : Token)
  | closure (captures : List Token)
  | call (call : CallExpr)
  deriving DecidableEq, Inhabited

/-- A statement. -/
inductive Stmt where
  | assign (dest : Token) (written : Option Token) (rhs : Rhs)
  | store (base field value : Token)
  | call (call : CallExpr)
  | use (value : Token)
  | write (value : Token)
  deriving DecidableEq, Inhabited

/-- The end of a block. -/
inductive Exit where
  | goto (target : Token)
  | branch (cond : Option Token) (targets : List Token)
  | ret (value : Option Token)
  | throw (value handler : Option Token)
  | unreachable
  deriving DecidableEq, Inhabited

/-- A labelled block. -/
structure BlockTree where
  label : Token
  stmts : List (Located Stmt)
  exit : Located Exit
  deriving DecidableEq, Inhabited

/-- A parameter with its type. -/
structure ParamTree where
  name : Token
  type : Token
  deriving DecidableEq, Inhabited

/-- A function; it has at least one block, and the first is the entry. -/
structure FuncTree where
  name : Token
  params : List ParamTree
  domain : Token
  entry : BlockTree
  others : List BlockTree
  deriving DecidableEq, Inhabited

/-- All blocks of a function in textual order. -/
def FuncTree.blocks (f : FuncTree) : List BlockTree := f.entry :: f.others

/-- The declaration of a type. -/
structure TypeTree where
  name : Token
  sendable : Bool
  deriving DecidableEq, Inhabited

/-- A declaration of a type or a function. -/
inductive Item where
  | type (t : TypeTree)
  | func (f : Located FuncTree)
  deriving DecidableEq, Inhabited

end Sendability.Source
