/-
  From text to programs.

  `Program.parse` cuts a text into tokens, reads them by the grammar and
  builds the program: all types first, then one function after the other,
  each with its scope, its blocks and last its own name. Faults of tokens and
  grammar come first, in the order of the text.
-/
import Sendability.Source.Grammar
import Sendability.Source.Scope

namespace Sendability.Source

/-! ## Syntax -/

/-- Blames the first token that was left, or, when there is none, the stray
    character that stopped scanning or else the end of the text. -/
def blame (text : Text) (s : Scan) : List Token → Fault
  | t :: _ => .unexpected t
  | [] =>
    match s.stuck with
    | some p => .stray (.of text p s.tokens.getLast?)
    | none => .unexpectedEnd s.tokens.getLast?

/-- The declarations of a text. -/
def readItems (text : Text) : Except Fault (List Item) :=
  let s := scan text
  match Grammar.items.read s.tokens with
  | .error left => .error (blame text s left)
  | .ok (items, []) => if s.stuck.isSome then .error (blame text s []) else .ok items
  | .ok (_, left) => .error (blame text s left)

/-! ## Operations and blocks -/

/-- The name of a block without the sigil of its label. -/
def labelName (t : Token) : Name := ⟨t.text.points.drop 1⟩

/-- The domain that the attributes of a call name last. -/
def attrDomain (attrs : List CallAttr) : Option Name :=
  attrs.foldl (fun d a => match a with
    | .onDomain t => some t.text
    | .spawn => d) none

/-- A call. The first of several segments of the callee is the receiver if it
    names a value. -/
def buildCall (scope : Scope) (e : CallExpr) (dest : Option Value) (loc : Span) :
    Except Fault Call := do
  let args ← scope.valuesOf e.args
  let receiver := if e.fields.isEmpty then none else (scope.value e.callee).toOption
  return {
    callee := Text.joined "." ((e.callee :: e.fields).map Token.text)
    args
    dest
    receiver
    domain := attrDomain e.attrs
    spawns := e.attrs.contains .spawn
    loc }

/-- An operation. -/
def buildOp (file : Option Text) (scope : Scope) (s : Located Stmt) : Except Fault Op := do
  let loc := Fault.nodeSpan file s.start s.stop
  match s.node with
  | .assign dest _ rhs =>
    let dest ← scope.value dest
    match rhs with
    | .init _ args => return .init dest (← scope.valuesOf args) loc
    | .load base field => return .load dest (← scope.value base) field.text loc
    | .copy src => return .copy dest (← scope.value src) loc
    | .closure captures => return .closure dest (← scope.valuesOf captures) loc
    | .call e => return .call (← buildCall scope e (some dest) loc)
  | .store base field value =>
    let base ← scope.value base
    let value ← scope.value value
    return .store base field.text value loc
  | .call e => return .call (← buildCall scope e none loc)
  | .use v => return .use (← scope.value v) .read loc
  | .write v => return .use (← scope.value v) .write loc

/-- The operations of a list of statements. -/
def buildOps (file : Option Text) (scope : Scope) : List (Located Stmt) → Except Fault (List Op)
  | [] => .ok []
  | s :: rest => do
    let op ← buildOp file scope s
    let ops ← buildOps file scope rest
    return op :: ops

/-- A terminator. -/
def buildExit (file : Option Text) (scope : Scope) (e : Located Exit) :
    Except Fault Terminator := do
  let loc := Fault.nodeSpan file e.start e.stop
  match e.node with
  | .goto target => return .goto (labelName target) loc
  | .branch cond targets => return .branch (targets.map labelName) (← scope.value? cond) loc
  | .ret value => return .ret (← scope.value? value) loc
  | .throw value handler => return .throw (← scope.value? value) (handler.map labelName) loc
  | .unreachable => return .unreachable loc

/-- The blocks of a function; a label may stand once. -/
def buildBlocks (file : Option Text) (scope : Scope) (function : Name) :
    Table Name Block → List BlockTree → Except Fault (Table Name Block)
  | blocks, [] => .ok blocks
  | blocks, b :: rest =>
    let name := labelName b.label
    if blocks.contains name then .error (.duplicateBlock b.label function)
    else do
      let ops ← buildOps file scope b.stmts
      let exit ← buildExit file scope b.exit
      buildBlocks file scope function
        (blocks.insert name { name, ops, terminator := some exit }) rest

/-! ## Functions and programs -/

/-- A function. -/
def buildFunc (file : Option Text) (types : Types) (f : Located FuncTree) :
    Except Fault Func := do
  let name := f.node.name.text
  let (params, scope) ← f.node.scope types
  let blocks ← buildBlocks file scope name {} f.node.blocks
  return {
    name
    params
    domain := f.node.domain.text
    blocks
    entry := labelName f.node.entry.label
    loc := Fault.nodeSpan file f.start f.stop }

/-- The declared types; a type may be declared once. -/
def declareTypes : Types → List Item → Except Fault Types
  | types, [] => .ok types
  | types, .type t :: rest =>
    if types.contains t.name.text then .error (.duplicateType t.name)
    else declareTypes (types.insert t.name.text ⟨t.name.text, t.sendable⟩) rest
  | types, .func _ :: rest => declareTypes types rest

/-- The functions, in order; `seen` are the names of those before. -/
def buildFuncs (file : Option Text) (types : Types) :
    List Name → List Item → Except Fault (List Func)
  | _, [] => .ok []
  | seen, .type _ :: rest => buildFuncs file types seen rest
  | seen, .func f :: rest => do
    let func ← buildFunc file types f
    if func.name ∈ seen then .error (.duplicateFunction f.node.name f.start f.stop)
    else
      let funcs ← buildFuncs file types (func.name :: seen) rest
      return func :: funcs

/-- The program that some declarations make up. -/
def buildProgram (file : Option Text) (items : List Item) : Except Fault Program := do
  let types ← declareTypes {} items
  let functions ← buildFuncs file types [] items
  return { functions, types, path := file }

end Sendability.Source

namespace Sendability

/-- The program in a text that was read from `file`. -/
def Program.parse (text : Text) (file : Option Text := none) :
    Except Source.Fault Program := do
  let items ← Source.readItems text
  Source.buildProgram file items

end Sendability
