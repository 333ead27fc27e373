/-
  The order of evaluations does not matter, and the result is least.

  The loop takes the first queued block; `Func.Run` takes any. Runs that empty
  their queue give solutions of the data-flow equations, and a solution of a run
  is below every solution, so two of them are the same
  (`Solution.view_eq`).

  Leastness is stated against families of states that were built by the changes
  of `Regions` in any way (`Regions.Built`), with sites that carry what the call
  at their point says, and not only against what a run can reach. The result of
  an analysis is one of these families.
-/

import Sendability.Proofs.BuiltStates

namespace Sendability

open Relation (ReflTransGen)

namespace Func

variable {σ : Type} {f : Func} {c : Classifier σ} {kinds : Op → Crossing} {P : Site → Prop}
  {initial : Regions}

-- ============================================================================
-- Least solutions
-- ============================================================================

/-- The views of the entries, as a family over all names. -/
def entryViews (entries : Table Name Regions) (n : Name) : View :=
  ((entries.get? n).map Regions.view).getD View.empty

theorem Solution.solves {entries exits : Table Name Regions}
    (h : f.Solution kinds P initial entries exits) :
    f.Solves kinds initial (entryViews entries) where
  lawful := by
    intro n hn
    obtain ⟨s, -, hs, -⟩ := h.reached hn
    rw [entryViews, hs]
    exact Regions.lawful_view (h.entryWF hs)
  start := by
    obtain ⟨s, -, hs, -⟩ := h.reached ReflTransGen.refl
    rw [entryViews, hs]
    exact (h.above hs).start rfl
  edge := by
    intro p n hp hedge
    obtain ⟨s, e, hs, he⟩ := h.reached hp
    obtain ⟨t, -, ht, -⟩ := h.reached (ReflTransGen.tail hp hedge)
    rw [entryViews, entryViews, hs, ht]
    have hexit := (h.above ht).edge p e hedge he
    rw [h.exit hs he] at hexit
    exact hexit

/-- Two solutions of runs have the same views. -/
theorem Solution.view_eq {entries exits entries' exits' : Table Name Regions}
    (h : f.Solution kinds P initial entries exits)
    (h' : f.Solution kinds P initial entries' exits') {n : Name} {s t : Regions}
    (hs : entries.get? n = some s) (ht : entries'.get? n = some t) : s.view = t.view := by
  have hst := h.least h'.solves hs
  have hts := h'.least h.solves ht
  rw [entryViews, ht] at hst
  rw [entryViews, hs] at hts
  exact le_antisymm hst hts

/-- A family of entries and exits solves the data-flow equations on the reached
    blocks, up to `Regions.same`. -/
structure Equations (f : Func) (c : Classifier σ) (initial : Regions)
    (entry exit : Name → Regions) : Prop where
  leaving : ∀ {n i b}, f.Reaches n → f.At n i b → ∃ memory r,
    f.passBlock c false memory (entry n) i b = .ok r ∧ (exit n).same r.regions = .ok true
  entering : ∀ {n}, f.Reaches n → ∃ first rest j,
    (∀ x, x ∈ first :: rest ↔ f.FlowsInto initial (fun p => some (exit p)) n x) ∧
    first.joinAll rest = .ok j ∧ (entry n).same j = .ok true

section Families

variable {entry exit : Name → Regions}

/-- A solution of the equations has the exits that its entries flow to. -/
theorem Equations.exit_view (h : f.Equations c initial entry exit)
    (hreg : f.Regular c kinds P initial) {n : Name} (hn : f.Reaches n)
    (hentry : (entry n).WellFormed P) (hexit : (exit n).WellFormed P) :
    (exit n).view = f.flow kinds n (entry n).view := by
  obtain ⟨i, b, hat⟩ := hreg.reached hn
  obtain ⟨memory, r, hr, hsame⟩ := h.leaving hn hat
  obtain ⟨r', hr', hrwf, hrview, -⟩ :=
    passBlock_spec hreg.closed hentry hreg.answers false memory i (hreg.makes hat)
  obtain rfl := Except.ok.inj (hr.symm.trans hr')
  rw [Regions.view_of_same hreg.coherent hexit hrwf hsame, hat.flow, hrview]

theorem Equations.flowsInto_le (h : f.Equations c initial entry exit)
    (hreg : f.Regular c kinds P initial) (hentry : ∀ n, f.Reaches n → (entry n).WellFormed P)
    (hexit : ∀ n, f.Reaches n → (exit n).WellFormed P) {n : Name} (hn : f.Reaches n) {x : Regions}
    (hx : f.FlowsInto initial (fun p => some (exit p)) n x) : x.view ≤ (entry n).view := by
  obtain ⟨first, rest, j, hl, hj, hsame⟩ := h.entering hn
  have hwf : ∀ y ∈ first :: rest, y.WellFormed P := by
    intro y hy
    rcases (hl y).1 hy with ⟨-, rfl⟩ | ⟨p, hp, -, he⟩
    · exact hreg.initial
    · exact Option.some.inj he ▸ hexit p hp
  obtain ⟨j', hj', hjwf, hjoin⟩ := Regions.joinAll_spec hreg.closed (hwf first (by simp))
    fun y hy => hwf y (List.mem_cons_of_mem _ hy)
  obtain rfl := Except.ok.inj (hj.symm.trans hj')
  rw [Regions.view_of_same hreg.coherent (hentry n hn) hjwf hsame]
  exact hjoin.upper x.view ⟨x, (hl x).2 hx, rfl⟩

/-- A solution of the equations lies above the start and above every flow. -/
theorem Equations.solves (h : f.Equations c initial entry exit)
    (hreg : f.Regular c kinds P initial) (hentry : ∀ n, f.Reaches n → (entry n).WellFormed P)
    (hexit : ∀ n, f.Reaches n → (exit n).WellFormed P) :
    f.Solves kinds initial fun n => (entry n).view where
  lawful n hn := Regions.lawful_view (hentry n hn)
  start := h.flowsInto_le hreg hentry hexit ReflTransGen.refl (.inl ⟨rfl, rfl⟩)
  edge := by
    intro p n hp hedge
    rw [← h.exit_view hreg hp (hentry p hp) (hexit p hp)]
    exact h.flowsInto_le hreg hentry hexit (ReflTransGen.tail hp hedge)
      (.inr ⟨p, hp, hedge, rfl⟩)

end Families

/-- The states of a table as a family over all names. -/
def held (t : Table Name Regions) (n : Name) : Regions := (t.get? n).getD Regions.empty

theorem held_of_get? {t : Table Name Regions} {n : Name} {s : Regions} (h : t.get? n = some s) :
    held t n = s := by
  rw [held, h]
  rfl

/-- A solution is such a family itself. -/
theorem Solution.equations {entries exits : Table Name Regions}
    (h : f.Solution kinds P initial entries exits) (hreg : f.Regular c kinds P initial)
    (memory : σ) : f.Equations c initial (held entries) (held exits) where
  leaving := by
    intro n i b hn hat
    obtain ⟨s, e, hs, he⟩ := h.reached hn
    obtain ⟨r, hr, hrwf, hrview, -⟩ :=
      passBlock_spec hreg.closed (h.entryWF hs) hreg.answers false memory i (hreg.makes hat)
    rw [held_of_get? hs, held_of_get? he]
    refine ⟨memory, r, hr, Regions.same_of_view hreg.coherent (h.exitWF he) hrwf ?_⟩
    rw [h.exit hs he, hat.flow, hrview]
  entering := by
    intro n hn
    obtain ⟨s, -, hs, -⟩ := h.reached hn
    obtain ⟨first, rest, j, hl, hj, hjwf, hview⟩ :=
      h.join_eq hreg.closed hreg.initial hs (h.mem_incoming_iff n)
    refine ⟨first, rest, j, ?_, hj, ?_⟩
    · intro x
      rw [← hl, h.mem_incoming_iff]
      -- the exit of a reached block is the one in the table
      refine or_congr_right (exists_congr fun p => and_congr_right fun hp => ?_)
      obtain ⟨-, e, -, he⟩ := h.reached hp
      simp only [held_of_get? he, he]
    · rw [held_of_get? hs]
      exact Regions.same_of_view hreg.coherent (h.entryWF hs) hjwf hview

-- ============================================================================
-- Independence of the order, and leastness
-- ============================================================================

/-- A run in any order that empties its queue reaches the same blocks as the
    analysis and has the same entries and exits. The entries and exits of the
    analysis are a family of built states that solves the equations, and the
    entries are below those of every other one. -/
theorem solve_least_in_any_order (hvalid : f.validate = .ok ()) (hc : c.Steady)
    {memory memory' : σ} {bound : Int} {a : Analysis}
    (h : f.solve c memory bound = .ok (a, memory')) {initial : Regions}
    (hinitial : Regions.entry f = .ok initial) :
    (∀ start p, f.Run c initial (f.startProgress initial start) p → p.queue = [] →
      (∀ n, n ∈ p.entries.keys ↔ n ∈ a.entries.keys) ∧
      (∀ n, n ∈ p.exits.keys ↔ n ∈ a.exits.keys) ∧
      (∀ n s t, p.entries.get? n = some s → a.entries.get? n = some t → s.same t = .ok true) ∧
      ∀ n s t, p.exits.get? n = some s → a.exits.get? n = some t → s.same t = .ok true) ∧
    ((∀ n, f.Reaches n → ∃ s e, a.entries.get? n = some s ∧ a.exits.get? n = some e ∧
        s.Built (f.Stamped c) ∧ e.Built (f.Stamped c)) ∧
      f.Equations c initial (held a.entries) (held a.exits)) ∧
    ∀ entry exit, (∀ n, f.Reaches n → (entry n).Built (f.Stamped c)) →
      (∀ n, f.Reaches n → (exit n).Built (f.Stamped c)) → f.Equations c initial entry exit →
      ∀ n s, a.entries.get? n = some s → s.Below (entry n) := by
  obtain ⟨initial', q, hinitial', hrun, hempty, hentries, hexits, -, -⟩ := solve_ok h
  obtain rfl := Except.ok.inj (hinitial.symm.trans hinitial')
  have hreg := regular_of_validate hvalid hc memory hinitial
  have hsol := (hrun.invariant hreg (invariant_start hreg.initial memory)).solution hempty
  have hstart : initial.Built (f.Stamped c) := Regions.built_entry hinitial
  have hbuilt := (allBuilt_start hstart memory).run hreg hstart hrun
  rw [← hentries, ← hexits] at hsol
  refine ⟨?_, ⟨?_, hsol.equations hreg memory⟩, ?_⟩
  · intro start p hrun' hempty'
    have hsol' := (hrun'.invariant hreg (invariant_start hreg.initial start)).solution hempty'
    refine ⟨?_, ?_, ?_, ?_⟩
    · intro n
      rw [hsol'.keys_entries, hsol.keys_entries]
    · intro n
      rw [hsol'.keys_exits, hsol.keys_exits]
    · intro n s t hs ht
      exact Regions.same_of_view hreg.coherent (hsol'.entryWF hs) (hsol.entryWF ht)
        (hsol'.view_eq hsol hs ht)
    · intro n s t hs ht
      obtain ⟨x, -, hx, -⟩ := hsol'.reached (hsol'.onlyExit hs)
      obtain ⟨y, -, hy, -⟩ := hsol.reached (hsol.onlyExit ht)
      refine Regions.same_of_view hreg.coherent (hsol'.exitWF hs) (hsol.exitWF ht) ?_
      rw [hsol'.exit hx hs, hsol.exit hy ht, hsol'.view_eq hsol hx hy]
  · intro n hn
    obtain ⟨s, e, hs, he⟩ := hsol.reached hn
    have hs' : q.entries.get? n = some s := by
      rw [← hentries]
      exact hs
    have he' : q.exits.get? n = some e := by
      rw [← hexits]
      exact he
    exact ⟨s, e, hs, he, hbuilt.entries hs', hbuilt.exits he'⟩
  · intro entry exit hentry hexit heq n s hs
    have hentry' : ∀ n, f.Reaches n → (entry n).WellFormed (f.Stamped c) :=
      fun n hn => (hentry n hn).wellFormed hreg.closed
    have hexit' : ∀ n, f.Reaches n → (exit n).WellFormed (f.Stamped c) :=
      fun n hn => (hexit n hn).wellFormed hreg.closed
    exact Regions.below_of_view_le (hsol.entryWF hs) (hentry' n (hsol.only hs))
      (hsol.least (heq.solves hreg hentry' hexit') hs)

theorem sendingLoop_any_order : ∃ a initial, sendingLoop.validate = .ok () ∧
    sendingLoop.solve Classifier.asWritten () 40 = .ok (a, ()) ∧
    Regions.entry sendingLoop = .ok initial ∧
    sendingLoop.Equations (Classifier.asWritten : Classifier Unit) initial (held a.entries)
      (held a.exits) ∧
    ∃ p, sendingLoop.Run Classifier.asWritten initial (sendingLoop.startProgress initial ()) p ∧
      p.queue = [] ∧ ∀ n, n ∈ p.entries.keys ↔ n ∈ a.entries.keys := by
  obtain ⟨⟨a, _⟩, ha⟩ := sendingLoop_solved
  have hvalid : sendingLoop.validate = .ok () := by decide +kernel
  obtain ⟨initial, p, hinitial, hrun, hempty, -⟩ := solve_ok ha
  obtain ⟨hany, hown, -⟩ := solve_least_in_any_order hvalid asWritten_steady ha hinitial
  exact ⟨a, initial, hvalid, ha, hinitial, hown.2, p, hrun, hempty, (hany () p hrun hempty).1⟩

end Func

end Sendability
