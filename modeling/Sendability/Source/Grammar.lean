/-
  The grammar of the textual program form.

  A text is a list of type declarations and functions. Labels carry a sigil,
  so a `return` without a value may be followed by the next block. No rule
  refers to itself, so each is a plain value; `items` is the rule for a whole
  text.
-/
import Sendability.Source.Tree

namespace Sendability.Source.Grammar

open Rule

/-- Names between two marks, divided by commas, or nothing between them. -/
def names (l r : Mark) : Rule (List Token) := between (mark l) (mark r) (commaList? name)

/-- `on` a domain, or `spawn`. -/
def callAttr : Rule CallAttr :=
  either (.map CallAttr.onDomain (after (word .onDomain) name))
    (.map (fun _ => CallAttr.spawn) (word .spawn))

/-- `call` with a dotted callee, arguments and attributes. -/
def callExpr : Rule CallExpr :=
  .map (fun (callee, fields, args, attrs) => ⟨callee, fields, args, attrs⟩) <|
    after (word .call) <|
      .seq name <| .seq (.many (after (mark .dot) name)) <|
        .seq (names .lpar .rpar) (.many callAttr)

/-- What may stand after an equal sign. -/
def rhs : Rule Rhs :=
  either (.map (fun (t, args) => Rhs.init t args)
    (after (word .init) (.seq name (names .lpar .rpar)))) <|
  either (.map (fun (b, f) => Rhs.load b f)
    (after (word .load) (.seq name (after (mark .dot) name)))) <|
  either (.map Rhs.copy (after (word .copy) name)) <|
  either (.map Rhs.closure (after (word .closure) (names .lsqb .rsqb))) <|
  .map Rhs.call callExpr

/-- An assignment, with or without the type of what it defines. -/
def assign : Rule Stmt :=
  .map (fun (d, t, r) => Stmt.assign d t r) <|
    .seq name <| .seq (.optional (after (mark .colon) name)) (after (mark .equal) rhs)

/-- A write to a field. -/
def store : Rule Stmt :=
  .map (fun (b, f, v) => Stmt.store b f v) <|
    after (word .store) <| .seq name <| .seq (after (mark .dot) name) (after (mark .equal) name)

/-- A statement. -/
def stmt : Rule Stmt :=
  either assign <|
  either store <|
  either (.map Stmt.call callExpr) <|
  either (.map Stmt.use (after (word .use) name)) <|
  .map Stmt.write (after (word .write) name)

/-- The end of a block. -/
def exit : Rule Exit :=
  either (.map Exit.goto (after (word .goto) label)) <|
  either (.map (fun (c, t, u, us) => Exit.branch c (t :: u :: us)) <|
    after (word .br) <|
      .seq (.optional (before name (mark .qmark))) <|
        .seq label (after (mark .comma) (commaList label))) <|
  either (.map Exit.ret (after (word .ret) (.optional name))) <|
  either (.map (fun (v, h) => Exit.throw v h) <|
    after (word .throw) <|
      .seq (.optional name) (.optional (after (word .toHandler) label))) <|
  .map (fun _ => Exit.unreachable) (word .unreachable)

/-- A labelled block. -/
def block : Rule BlockTree :=
  .map (fun (l, ss, e) => ⟨l, ss, e⟩) <|
    .seq (before label (mark .colon)) <| .seq (.many (located stmt)) (located exit)

/-- A parameter. -/
def param : Rule ParamTree :=
  .map (fun (n, t) => ⟨n, t⟩) (.seq name (after (mark .colon) name))

/-- A function. -/
def func : Rule FuncTree :=
  .map (fun (n, ps, d, b, bs) => ⟨n, ps, d, b, bs⟩) <|
    after (word .func) <| .seq name <|
      .seq (between (mark .lpar) (mark .rpar) (commaList? param)) <|
        .seq (after (word .inDomain) name) <|
          between (mark .lbrace) (mark .rbrace) (.seq block (.many block))

/-- The declaration of a type. -/
def typeDecl : Rule TypeTree :=
  .map (fun (n, s) => ⟨n, s.isSome⟩) <|
    after (word .type) (.seq name (.optional (word .sendable)))

/-- A whole text. -/
def items : Rule (List Item) :=
  .many (either (.map Item.type typeDecl) (.map Item.func (located func)))

end Sendability.Source.Grammar
