/-
  Grammar rules as values, and the reader that follows them.

  A `Rule α` describes sequences of tokens and what each of them means, a
  value of type `α`. `Rule.read` decides by the next token alone: it takes an
  optional or repeated part exactly when the next token can start it, and the
  first alternative unless only the second can start. A failure reports the
  tokens that were left, so its head is the token to blame.

  The marks that carry no meaning are read by the same rules; `located` keeps
  the places of the first and the last token of a part, marks included.
-/
import Sendability.Source.Token

namespace Sendability.Source

/-- A syntax node with the places where its first token starts and where its
    last token stops. -/
structure Located (α : Type) where
  start : Position
  stop : Position
  node : α
  deriving DecidableEq, Inhabited

/-- A rule for token sequences with a meaning of type `α`. -/
inductive Rule : Type → Type 1 where
  /-- One token of a kind. -/
  | token (k : Kind) : Rule Token
  /-- The same sequences with another meaning. -/
  | map {α β : Type} (f : α → β) (r : Rule α) : Rule β
  /-- One part and then another. -/
  | seq {α β : Type} (r : Rule α) (s : Rule β) : Rule (α × β)
  /-- One part or another. -/
  | either {α : Type} (r s : Rule α) : Rule α
  /-- A part that may be absent. -/
  | optional {α : Type} (r : Rule α) : Rule (Option α)
  /-- A part any number of times. -/
  | many {α : Type} (r : Rule α) : Rule (List α)
  /-- A part together with its place. -/
  | located {α : Type} (r : Rule α) : Rule (Located α)

namespace Rule

/-- Whether a rule admits the empty sequence. -/
def nullable : {α : Type} → Rule α → Bool
  | _, .token _ => false
  | _, .map _ r => r.nullable
  | _, .seq r s => r.nullable && s.nullable
  | _, .either r s => r.nullable || s.nullable
  | _, .optional _ => true
  | _, .many _ => true
  | _, .located r => r.nullable

/-- Whether a sequence of a rule can start with a token of kind `k`. -/
def starts : {α : Type} → Rule α → Kind → Bool
  | _, .token k', k => k' = k
  | _, .map _ r, k => r.starts k
  | _, .seq r s, k => r.starts k || (r.nullable && s.starts k)
  | _, .either r s, k => r.starts k || s.starts k
  | _, .optional r, k => r.starts k
  | _, .many r, k => r.starts k
  | _, .located r, k => r.starts k

/-- Whether the next of some tokens can start a sequence of a rule. -/
def startsAt {α : Type} (r : Rule α) : List Token → Bool
  | [] => false
  | t :: _ => r.starts t.kind

end Rule

/-- The outcome of reading: a meaning and the tokens after it, or the tokens
    that were left when none fitted. -/
abbrev Reading (α : Type) := Except (List Token) (α × List Token)

/-- Reads parts with `p` as long as the next token can start one and tokens are
    used up. -/
def readMany {α : Type} (starts : List Token → Bool) (p : List Token → Reading α)
    (ts : List Token) : Reading (List α) :=
  if starts ts then
    match p ts with
    | .error left => .error left
    | .ok (a, rest) =>
      if rest.length < ts.length then
        match readMany starts p rest with
        | .error left => .error left
        | .ok (as, rest) => .ok (a :: as, rest)
      else .ok ([a], rest)
  else .ok ([], ts)
termination_by ts.length

/-- The place of the tokens used up between two moments of reading. -/
def place (before after : List Token) : Position × Position :=
  let used := before.take (before.length - after.length)
  match used.head?, used.getLast? with
  | some a, some b => (a.start, b.stop)
  | _, _ => ({}, {})

/-- Reads one sequence of a rule off the front of some tokens. -/
def Rule.read : {α : Type} → Rule α → List Token → Reading α
  | _, .token k, ts =>
    match ts with
    | t :: rest => if t.kind = k then .ok (t, rest) else .error ts
    | [] => .error ts
  | _, .map f r, ts =>
    match r.read ts with
    | .error left => .error left
    | .ok (a, rest) => .ok (f a, rest)
  | _, .seq r s, ts =>
    match r.read ts with
    | .error left => .error left
    | .ok (a, rest) =>
      match s.read rest with
      | .error left => .error left
      | .ok (b, rest) => .ok ((a, b), rest)
  | _, .either r s, ts => if r.startsAt ts then r.read ts else s.read ts
  | _, .optional r, ts =>
    if r.startsAt ts then
      match r.read ts with
      | .error left => .error left
      | .ok (a, rest) => .ok (some a, rest)
    else .ok (none, ts)
  | _, .many r, ts => readMany r.startsAt r.read ts
  | _, .located r, ts =>
    match r.read ts with
    | .error left => .error left
    | .ok (a, rest) =>
      let (start, stop) := place ts rest
      .ok (⟨start, stop, a⟩, rest)

/-! ## Derived rules -/

namespace Rule

/-- A keyword or a mark, for its place in the sequence alone. -/
def skip (k : Kind) : Rule Unit := .map (fun _ => ()) (.token k)

/-- A keyword. -/
def word (k : Keyword) : Rule Unit := skip (.keyword k)

/-- A punctuation mark. -/
def mark (m : Mark) : Rule Unit := skip (.mark m)

/-- Any name. -/
def name : Rule Token := .token .name

/-- Any label. -/
def label : Rule Token := .token .label

/-- The second of two parts counts. -/
def after {α β : Type} (r : Rule α) (s : Rule β) : Rule β := .map Prod.snd (.seq r s)

/-- The first of two parts counts. -/
def before {α β : Type} (r : Rule α) (s : Rule β) : Rule α := .map Prod.fst (.seq r s)

/-- A part between two others. -/
def between {α β γ : Type} (l : Rule α) (r : Rule β) (m : Rule γ) : Rule γ := before (after l m) r

/-- One or more parts divided by commas. -/
def commaList {α : Type} (r : Rule α) : Rule (α × List α) :=
  .seq r (.many (after (mark .comma) r))

/-- No part, or parts divided by commas. -/
def commaList? {α : Type} (r : Rule α) : Rule (List α) :=
  .map (fun
    | some (a, as) => a :: as
    | none => []) (.optional (commaList r))

end Rule

end Sendability.Source
