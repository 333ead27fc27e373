/-
  Isolation of calls.

  For every call the checker asks one question: does the call stay in the
  caller's domain, does it enter another one, or does it spawn a task? A
  `Classifier` answers it and is the only source of that fact. It may answer
  the same question differently the next time, so it carries a state `σ` that
  each answer can change; one that depends on the call and the function alone
  is made by `Classifier.ofFunction`.
-/
import Sendability.IR.Basic

namespace Sendability

/-- How a call relates to the domain of its caller. -/
inductive Crossing where
  | sameDomain
  | entering
  | spawning
  deriving DecidableEq, Inhabited

/-- Whether a call hands its non-sendable operands to another domain. -/
def Crossing.transfers : Crossing → Bool
  | .sameDomain => false
  | .entering | .spawning => true

/-- The domain that a crossing call hands values to, as far as it is known. -/
def Call.targetDomain (c : Call) : Crossing → Option Name
  | .sameDomain => none
  | .entering | .spawning => c.domain

/-- Answers how a call in a function relates to the caller's domain. -/
structure Classifier (σ : Type) where
  classify : σ → Func → Call → Crossing × σ

namespace Classifier

variable {σ : Type}

/-- A classifier whose answers depend on the call and the function alone. -/
def ofFunction (g : Func → Call → Crossing) : Classifier σ where
  classify s f c := (g f c, s)

/-- The answer written on a call: spawning comes before any comparison of
    domains, and a call without a domain stays in the caller's. -/
def annotated (f : Func) (c : Call) : Crossing :=
  if c.spawns then .spawning
  else match c.domain with
    | none => .sameDomain
    | some d => if d = f.domain then .sameDomain else .entering

/-- The classifier that reads the answers written on the calls. -/
def asWritten : Classifier σ := ofFunction annotated

/-- A classifier with answers for some callees; `fallback` is asked about the
    others. -/
def byCallee (answers : Table Name Crossing) (fallback : Classifier σ) : Classifier σ where
  classify s f c :=
    match answers.get? c.callee with
    | some k => (k, s)
    | none => fallback.classify s f c

/-- A classifier that gives the listed answers in turn, whatever the call, and
    starts over at the end. Its state counts the answers given. -/
def inTurn (answers : List Crossing) : Classifier Nat where
  classify n _ _ := (answers.getD (n % answers.length) .sameDomain, n + 1)

end Classifier

end Sendability
