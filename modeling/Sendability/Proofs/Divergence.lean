/-
  When an analysis diverges.

  Without a bound the loop empties its queue after a number of evaluations that
  ranks can pay for, so an analysis needs a certain number of evaluations: it
  returns with every bound from that number on, with one result, and diverges
  with every smaller one (`solve_spec`). What the ranks can pay for is always
  enough (`solve_converges`).

  `Func.iterationBound` is meant to be enough. It counts a call site once for
  every name, while the values that are noted about a site can come one by one.
  It is enough when the calls have few operands; `rotation` is a function with
  one call of seven operands that needs more.
-/

import Sendability.Proofs.Potential

namespace Sendability

open Relation (ReflTransGen)

namespace Func

variable {σ : Type} {f : Func} {c : Classifier σ} {kinds : Op → Crossing} {P : Site → Prop}
  {initial : Regions}

/-- Draining the queue takes a certain number of evaluations: with so many allowed
    it succeeds, with fewer it diverges. -/
theorem drain_spec (hlim : f.Limited c kinds P initial) {p : Progress σ}
    (hinv : Invariant f kinds P initial [] p) (hpaid : f.Paid p) :
    ∃ q, Invariant f kinds P initial [] q ∧ p.evaluations ≤ q.evaluations ∧
      q.evaluations ≤ f.evaluationLimit ∧ ∀ bound fuel, f.drain c initial bound fuel p =
        if q.evaluations ≤ p.evaluations + fuel then .ok q
        else .error (.diverged f.name bound) := by
  have hle := hpaid.le_evaluationLimit hlim.regular hinv
  -- by induction on the evaluations that can still be paid for
  induction hleft : f.evaluationLimit - p.evaluations generalizing p with
  | zero =>
    have hempty : p.queue = [] := List.length_eq_zero_iff.1 (by omega)
    refine ⟨p, hinv, le_refl _, by omega, ?_⟩
    intro bound fuel
    rw [drain, hempty, if_pos (by omega)]
  | succ left ih =>
    cases hq : p.queue with
    | nil =>
      refine ⟨p, hinv, le_refl _, by omega, ?_⟩
      intro bound fuel
      rw [drain, hq, if_pos (by omega)]
    | cons n rest =>
      have hn : n ∈ p.queue := by simp [hq]
      obtain ⟨p', hok, hcount, hmoves⟩ := evaluate_spec hlim.regular hinv hn
      rw [hq, List.erase_cons_head] at hok
      have hinv' := hinv.moves hmoves
      have hpaid' := hpaid.moves hlim hinv hmoves
      have hle' := hpaid'.le_evaluationLimit hlim.regular hinv'
      obtain ⟨q, hqinv, hgrow, hlimit, hdrain⟩ := ih hinv' hpaid' hle' (by omega)
      refine ⟨q, hqinv, by omega, hlimit, ?_⟩
      intro bound fuel
      cases fuel with
      | zero =>
        rw [drain, hq, if_neg (by omega)]
      | succ fuel =>
        rw [drain, hq]
        simp only [hok, bind, Except.bind]
        rw [hdrain, hcount]
        have hfuel : p.evaluations + 1 + fuel = p.evaluations + (fuel + 1) := by omega
        rw [hfuel]

/-- From the start, the queue is emptied with every bound from the number of
    evaluations that it takes. -/
theorem drain_start_spec (hvalid : f.validate = .ok ()) (hc : c.Steady) (memory : σ)
    (hinitial : Regions.entry f = .ok initial) :
    ∃ p : Progress σ, p.queue = [] ∧
      (∃ accesses memory',
        f.collect c p.entries 0 p.memory f.blocks.entries = .ok (accesses, memory')) ∧
      p.evaluations ≤ f.evaluationLimit ∧ ∀ bound : Int,
        f.drain c initial bound bound.toNat (f.startProgress initial memory) =
          if (p.evaluations : Int) ≤ bound then .ok p else .error (.diverged f.name bound) := by
  have hlim := limited_of_validate hvalid hc memory hinitial
  obtain ⟨q, hqinv, -, hlimit, hdrain⟩ :=
    drain_spec hlim (invariant_start hlim.regular.initial memory) (paid_start f initial memory)
  obtain ⟨accesses, memory', hcollect, -⟩ :=
    collect_all hlim.regular (fun _ _ hs => (hqinv.entries hs).1) q.memory
  have hzero : (f.startProgress initial memory).evaluations = 0 := rfl
  -- the entry block is evaluated at least once
  have hpos : 0 < q.evaluations := by
    have hstop := hdrain 0 0
    rw [hzero, drain] at hstop
    simp only [startProgress] at hstop
    split at hstop
    · cases hstop
    · omega
  have hempty : q.queue = [] := by
    have hstop := hdrain 0 q.evaluations
    rw [hzero, if_pos (by omega)] at hstop
    exact (drain_ok hstop).2
  refine ⟨q, hempty, ⟨accesses, memory', hcollect⟩, hlimit, ?_⟩
  intro bound
  rw [hdrain, hzero]
  by_cases hle : (q.evaluations : Int) ≤ bound
  · rw [if_pos hle, if_pos (by omega)]
  · rw [if_neg hle, if_neg (by omega)]

/-- The result of an analysis whose queue is emptied. -/
theorem solve_of_drain {memory memory' : σ} {bound : Int} (hinitial : Regions.entry f = .ok initial)
    {p : Progress σ}
    (hdrain : f.drain c initial bound bound.toNat (f.startProgress initial memory) = .ok p)
    {accesses : List Access}
    (hcollect : f.collect c p.entries 0 p.memory f.blocks.entries = .ok (accesses, memory')) :
    f.solve c memory bound =
      .ok (⟨p.entries, p.exits, accesses, p.evaluations, bound⟩, memory') := by
  simp only [solve, hinitial, hdrain, hcollect, orUntracked, bind, Except.bind, pure, Except.pure]

/-- An analysis needs a certain number of evaluations, and has one result whatever
    larger number is allowed. -/
theorem solve_spec (hvalid : f.validate = .ok ()) (hc : c.Steady) (memory : σ) :
    ∃ (a : Analysis) (memory' : σ), a.evaluations ≤ f.evaluationLimit ∧
      ∀ bound : Int, f.solve c memory bound =
        if (a.evaluations : Int) ≤ bound then .ok ({ a with bound }, memory')
        else .error (.diverged f.name bound) := by
  obtain ⟨initial, hinitial, -⟩ := entry_spec f
  obtain ⟨p, -, ⟨accesses, memory', hcollect⟩, hlimit, hdrain⟩ :=
    drain_start_spec hvalid hc memory hinitial
  refine ⟨⟨p.entries, p.exits, accesses, p.evaluations, 0⟩, memory', hlimit, ?_⟩
  intro bound
  by_cases hle : (p.evaluations : Int) ≤ bound
  · rw [if_pos hle]
    refine solve_of_drain hinitial ?_ hcollect
    rw [hdrain, if_pos hle]
  · rw [if_neg hle]
    simp only [solve, hinitial, hdrain, hle, if_false, orUntracked, bind, Except.bind]

/-- With every bound from `B * (2 * V + V * K + 1)` on, for `B` blocks, `V` names of
    regions and `K` operands of calls, the queue is emptied, and the result does
    not depend on the bound. -/
theorem solve_converges (hvalid : f.validate = .ok ()) (hc : c.Steady) (memory : σ) :
    ∃ (initial : Regions) (p : Progress σ) (accesses : List Access) (memory' : σ),
      Regions.entry f = .ok initial ∧ p.queue = [] ∧ ∀ bound : Int,
        f.blocks.size * (2 * f.regionNames.length + f.regionNames.length * f.operandCount + 1) ≤
          bound →
        f.drain c initial bound bound.toNat (f.startProgress initial memory) = .ok p ∧
        f.solve c memory bound =
          .ok (⟨p.entries, p.exits, accesses, p.evaluations, bound⟩, memory') := by
  obtain ⟨initial, hinitial, -⟩ := entry_spec f
  obtain ⟨p, hempty, ⟨accesses, memory', hcollect⟩, hlimit, hdrain⟩ :=
    drain_start_spec hvalid hc memory hinitial
  refine ⟨initial, p, accesses, memory', hinitial, hempty, ?_⟩
  intro bound hbound
  have henough : (p.evaluations : Int) ≤ bound := by
    have hcast : (p.evaluations : Int) ≤ (f.evaluationLimit : Nat) := Int.ofNat_le.2 hlimit
    rw [evaluationLimit] at hcast
    push_cast at hcast
    exact hcast.trans hbound
  have hok : f.drain c initial bound bound.toNat (f.startProgress initial memory) = .ok p := by
    rw [hdrain, if_pos henough]
  exact ⟨hok, solve_of_drain hinitial hok hcollect⟩

/-- An analysis returns exactly when it is allowed the evaluations that it needs,
    and so it does with the bound of the function. That bound is enough when
    the calls have few operands. -/
theorem solve_returns_iff (hvalid : f.validate = .ok ()) (hc : c.Steady) (memory : σ) :
    ∃ needed : Nat,
      (∀ bound : Int, needed ≤ bound →
        ∃ a memory', f.solve c memory bound = .ok (a, memory') ∧ a.evaluations = needed) ∧
      (∀ bound : Int, bound < needed →
        f.solve c memory bound = .error (.diverged f.name bound)) ∧
      ((∃ r, f.solve c memory f.iterationBound = .ok r) ↔ needed ≤ f.iterationBound) ∧
      needed ≤ f.blocks.size *
        (2 * f.regionNames.length + f.regionNames.length * f.operandCount + 1) ∧
      (f.regionNames.length * f.operandCount ≤ f.callCount * max f.regionNames.length 1 + 1 →
        needed ≤ f.iterationBound) := by
  obtain ⟨a, memory', hlimit, hsolve⟩ := solve_spec hvalid hc memory
  refine ⟨a.evaluations, ?_, ?_, ?_, hlimit, ?_⟩
  · intro bound hle
    exact ⟨{ a with bound }, memory', by rw [hsolve, if_pos hle], rfl⟩
  · intro bound hlt
    rw [hsolve, if_neg (by omega)]
  · rw [hsolve]
    by_cases hle : a.evaluations ≤ f.iterationBound
    · simp [hle]
    · simp [hle]
  · intro hfew
    refine hlimit.trans ?_
    unfold evaluationLimit iterationBound
    exact Nat.mul_le_mul_left _ (by omega)

theorem sendingLoop_returns : sendingLoop.validate = .ok () ∧
    ∃ needed : Nat, needed ≤ sendingLoop.iterationBound ∧ ∀ bound : Int, needed ≤ bound →
      ∃ a, sendingLoop.solve Classifier.asWritten () bound = .ok (a, ()) ∧
        a.evaluations = needed := by
  have hvalid : sendingLoop.validate = .ok () := by decide +kernel
  obtain ⟨needed, hreturns, -, -, -, hbound⟩ := solve_returns_iff hvalid asWritten_steady ()
  refine ⟨hvalid, needed, hbound (by decide +kernel), ?_⟩
  intro bound hle
  obtain ⟨a, _, ha, hcount⟩ := hreturns bound hle
  exact ⟨a, ha, hcount⟩

/-- Seven values come one by one to a call that hands over all that are there,
    and go round in a loop of nine blocks after it. Each new value takes another
    seven turns of the loop to be noted everywhere. -/
def rotation : Func :=
  let box (n : Name) : Value := ⟨n, ⟨"Box", false⟩⟩
  let fresh (n : Name) : Op := .init (box n) [] {}
  let move (d s : Name) : Op := .copy (box d) (box s) {}
  let block (n : Name) (ops : List Op) (targets : List Name) : Name × Block :=
    (n, ⟨n, ops, some (match targets with
      | [t] => .goto t {}
      | _ => .branch targets none {})⟩)
  { name := "f"
    domain := "main"
    entry := "u1"
    blocks := Table.ofList
      [block "u1" [fresh "a"] ["d", "u2"], block "u2" [fresh "b"] ["d", "u3"],
       block "u3" [fresh "c"] ["d", "u4"], block "u4" [fresh "d"] ["d", "u5"],
       block "u5" [fresh "e"] ["d", "u6"], block "u6" [fresh "f"] ["d", "u7"],
       block "u7" [fresh "z"] ["d"],
       block "d"
         [.call { callee := "send", args := ["a", "b", "c", "d", "e", "f", "z"].map box
                  domain := some "A" },
          move "z" "a", fresh "a", fresh "b", fresh "c", fresh "d", fresh "e", fresh "f"] ["e1"],
       block "e1"
         [move "a" "b", move "b" "c", move "c" "d", move "d" "e", move "e" "f", move "f" "z",
          fresh "z"] ["e2"],
       block "e2" [] ["e3"], block "e3" [] ["e4"], block "e4" [] ["e5"], block "e5" [] ["e6"],
       block "e6" [] ["e7"], block "e7" [] ["e8"], block "e8" [] ["e9"],
       block "e9" [] ["e1"]] }

theorem rotation_diverges : rotation.validate = .ok () ∧ rotation.iterationBound = 391 ∧
    rotation.solve Classifier.asWritten () rotation.iterationBound =
      .error (.diverged "f" 391) := by
  have hvalid : rotation.validate = .ok () := by decide +kernel
  have hbound : rotation.iterationBound = 391 := by decide +kernel
  have hsolve : rotation.solve Classifier.asWritten () 391 = .error (.diverged "f" 391) := by
    decide +kernel
  refine ⟨hvalid, hbound, ?_⟩
  rw [hbound]
  exact hsolve

/-- The same function converges when it is allowed enough. -/
theorem rotation_converges : rotation.validate = .ok () ∧
    ∃ (initial : Regions) (p : Progress Unit) (accesses : List Access),
      Regions.entry rotation = .ok initial ∧ p.queue = [] ∧ ∀ bound : Int, 1088 ≤ bound →
        rotation.drain Classifier.asWritten initial bound bound.toNat
          (rotation.startProgress initial ()) = .ok p ∧
        rotation.solve Classifier.asWritten () bound =
          .ok (⟨p.entries, p.exits, accesses, p.evaluations, bound⟩, ()) := by
  have hvalid : rotation.validate = .ok () := by decide +kernel
  have hsize : rotation.blocks.size = 17 := by decide +kernel
  have hnames : rotation.regionNames.length = 7 := by decide +kernel
  have hoperands : rotation.operandCount = 7 := by decide +kernel
  obtain ⟨initial, p, accesses, _, hinitial, hempty, hbound⟩ :=
    solve_converges hvalid asWritten_steady ()
  refine ⟨hvalid, initial, p, accesses, hinitial, hempty, ?_⟩
  intro bound hle
  refine hbound bound ?_
  rw [hsize, hnames, hoperands]
  omega

end Func

end Sendability
