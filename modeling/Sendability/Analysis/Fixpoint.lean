/-
  The regions at every block of a function.

  The entry block starts from the parameters; any other block starts when a
  predecessor has been evaluated, from the join of all that have. Evaluating a
  block gives its regions at the exit, and every successor whose entry thereby
  changes is queued. When the queue is empty, the entries and exits satisfy
  the data-flow equations, and one more pass over every block that was reached
  lists the accesses.

  `Func.evaluate` is one step, for any queued block; `Func.solve` takes the
  queue in order, for at most as many steps as it is allowed. Divergence is an
  outcome of its own, and so is a look-up that fails.
-/
import Sendability.Analysis.Transfer
import Sendability.Region.Join

namespace Sendability

/-- Why an analysis has no result. -/
inductive Obstacle where
  /-- The queue was not empty after so many evaluations. -/
  | diverged (function : Name) (bound : Int)
  /-- A name was not tracked that had to be. -/
  | untracked (name : Name)
  /-- A block was not there. -/
  | missingBlock (name : Name)
  deriving DecidableEq, Inhabited

/-- The text of an obstacle; a failed look-up is shown by its name alone. -/
def Obstacle.message : Obstacle → Text
  | .diverged f bound =>
    "region analysis of '" ++ f ++ "' did not converge after " ++ Text.ofInt bound ++
      " block evaluations"
  | .untracked n => n
  | .missingBlock n => n

/-- An untracked name as an obstacle. -/
def orUntracked {α : Type} : Except Untracked α → Except Obstacle α
  | .ok a => .ok a
  | .error e => .error (.untracked e.name)

/-- How far an analysis has come: the regions at the entries and exits set so
    far, in the order in which they were first set, the blocks to evaluate, the
    number of evaluations, and the state of the classifier. -/
structure Progress (σ : Type) where
  entries : Table Name Regions
  exits : Table Name Regions
  queue : List Name
  evaluations : Nat
  memory : σ

/-- The result of an analysis. -/
structure Analysis where
  entries : Table Name Regions
  exits : Table Name Regions
  accesses : List Access
  evaluations : Nat
  bound : Int
  deriving DecidableEq, Inhabited

/-- Whether control can reach a block. -/
def Analysis.reached (a : Analysis) (block : Name) : Bool := a.entries.contains block

namespace Func

variable {σ : Type}

/-- The number of block evaluations an analysis is allowed: for every block as
    often as values can be added, regions merged and sites gained. -/
def iterationBound (f : Func) : Nat :=
  let values := f.regionNames.length
  let height := 2 * values + f.callCount * max values 1 + 1
  f.blocks.size * (height + 1)

/-- The regions that flow into a block: from the start of the function, and
    from the predecessors that have been evaluated. -/
def incoming (f : Func) (initial : Regions) (exits : Table Name Regions) (block : Name) :
    List Regions :=
  (if block = f.entry then [initial] else []) ++ (f.predecessors block).filterMap exits.get?

/-- The regions at the entry of a block, if anything flows into it. -/
def entryRegions (f : Func) (initial : Regions) (exits : Table Name Regions) (block : Name) :
    Except Untracked (Option Regions) :=
  match f.incoming initial exits block with
  | [] => .ok none
  | s :: rest => return some (← s.joinAll rest)

/-- Whether the regions at the entry of a block are the ones set for it. -/
def unchanged (entries : Table Name Regions) (block : Name) (s : Regions) :
    Except Untracked Bool :=
  match entries.get? block with
  | none => .ok false
  | some t => s.same t

/-- Queues a block unless it is queued. -/
def enqueue (queue : List Name) (block : Name) : List Name :=
  if block ∈ queue then queue else queue ++ [block]

/-- Sets the entry of a block anew, and queues the block if that changes it. -/
def refresh (f : Func) (initial : Regions) (p : Progress σ) (block : Name) :
    Except Untracked (Progress σ) := do
  match ← f.entryRegions initial p.exits block with
  | none => return p
  | some s =>
    if ← unchanged p.entries block s then return p
    else
      return { p with entries := p.entries.insert block s, queue := enqueue p.queue block }

/-- Looks at the entries of some successors, up to one that is no block. -/
def propagate (f : Func) (initial : Regions) (p : Progress σ) :
    List Name → Except Obstacle (Progress σ)
  | [] => .ok p
  | b :: rest =>
    if f.blocks.contains b then do
      let p ← orUntracked (f.refresh initial p b)
      f.propagate initial p rest
    else .error (.missingBlock b)

/-- Evaluates a block, which has been taken off the queue. -/
def evaluate (f : Func) (c : Classifier σ) (initial : Regions) (p : Progress σ) (name : Name) :
    Except Obstacle (Progress σ) :=
  match f.blocks.get? name, f.blockIndex? name, p.entries.get? name with
  | some b, some i, some s => do
    let q ← orUntracked (f.passBlock c false p.memory s i b)
    let exits := p.exits.insert name q.regions
    f.propagate initial
      { p with exits, evaluations := p.evaluations + 1, memory := q.memory } b.successors
  | _, _, _ => .error (.missingBlock name)

/-- Evaluates the blocks of the queue in order, at most `fuel` of them. -/
def drain (f : Func) (c : Classifier σ) (initial : Regions) (bound : Int) :
    Nat → Progress σ → Except Obstacle (Progress σ)
  | fuel, p =>
    match p.queue with
    | [] => .ok p
    | name :: rest =>
      match fuel with
      | 0 => .error (.diverged f.name bound)
      | fuel + 1 => do
        let p ← f.evaluate c initial { p with queue := rest } name
        f.drain c initial bound fuel p

/-- The start of an analysis: the entry block waits with the parameters. -/
def startProgress (f : Func) (initial : Regions) (memory : σ) : Progress σ where
  entries := Table.empty.insert f.entry initial
  exits := Table.empty
  queue := [f.entry]
  evaluations := 0
  memory

/-- The accesses in the blocks from number `i` on that were reached. -/
def collect (f : Func) (c : Classifier σ) (entries : Table Name Regions) :
    Nat → σ → List (Name × Block) → Except Untracked (List Access × σ)
  | _, memory, [] => .ok ([], memory)
  | i, memory, (name, b) :: rest =>
    match entries.get? name with
    | none => f.collect c entries (i + 1) memory rest
    | some s => do
      let q ← f.passBlock c true memory s i b
      let (more, memory) ← f.collect c entries (i + 1) q.memory rest
      return (q.accesses ++ more, memory)

/-- The analysis of a function in at most `bound` block evaluations, and the
    state of the classifier after it. -/
def solve (f : Func) (c : Classifier σ) (memory : σ) (bound : Int) :
    Except Obstacle (Analysis × σ) := do
  let initial ← orUntracked (Regions.entry f)
  let p ← f.drain c initial bound bound.toNat (f.startProgress initial memory)
  let (accesses, memory) ← orUntracked (f.collect c p.entries 0 p.memory f.blocks.entries)
  return (⟨p.entries, p.exits, accesses, p.evaluations, bound⟩, memory)

end Func

end Sendability
