/-
  An analysis covers every path of control.

  Along a path from the entry, the regions are what the blocks on it make of the
  regions at the start (`Func.follow`). They stay below the entry that the
  analysis has for the block where the path ends, since a solution is above what
  flows along every edge and blocks are monotone (`Solution.follow_le`). So what
  a block reports after the path is among the accesses of the analysis, which
  are those reported from its entries, and behind each of its sites stands a
  diagnostic.
-/

import Sendability.Proofs.DataFlow
import Sendability.Proofs.Grouping

namespace Sendability

open Relation (ReflTransGen)

namespace Func

variable {σ : Type} {f : Func} {c : Classifier σ} {kinds : Op → Crossing} {P : Site → Prop}
  {initial : Regions}

-- ============================================================================
-- Paths
-- ============================================================================

/-- The ways that control can take from the entry to a block, which is itself not
    listed. -/
inductive Walk (f : Func) : List Name → Name → Prop
  | start : Walk f [] f.entry
  | step {path : List Name} {n t : Name} : Walk f path n → f.Edge n t → Walk f (path ++ [n]) t

/-- Runs over the blocks of a path in turn. -/
def follow (f : Func) (c : Classifier σ) :
    σ → Regions → List Name → Except Obstacle (Regions × σ)
  | memory, s, [] => .ok (s, memory)
  | memory, s, n :: rest =>
    match f.blocks.get? n, f.blockIndex? n with
    | some b, some i =>
      match f.passBlock c false memory s i b with
      | .error e => .error (.untracked e.name)
      | .ok r => f.follow c r.memory r.regions rest
    | _, _ => .error (.missingBlock n)

theorem Walk.reaches {path : List Name} {n : Name} (h : f.Walk path n) : f.Reaches n := by
  induction h with
  | start => exact ReflTransGen.refl
  | step _ hedge ih => exact ReflTransGen.tail ih hedge

/-- A path is followed block by block. -/
theorem follow_concat {memory m : σ} {s t : Regions} {path : List Name} {n : Name} {i : Nat}
    {b : Block} {r : Passage σ} (hpath : f.follow c memory s path = .ok (t, m)) (hat : f.At n i b)
    (hr : f.passBlock c false m t i b = .ok r) :
    f.follow c memory s (path ++ [n]) = .ok (r.regions, r.memory) := by
  induction path generalizing memory s with
  | nil =>
    obtain ⟨rfl, rfl⟩ := Prod.mk.inj (Except.ok.inj hpath)
    rw [List.nil_append, follow, hat.get?, hat.blockIndex?]
    simp only [hr]
    rfl
  | cons p path ih =>
    rw [follow] at hpath
    rw [List.cons_append, follow]
    -- both sides go the same way through the first block
    split at hpath
    · split at hpath
      · cases hpath
      · exact ih hpath
    · cases hpath

/-- The regions along a path are below the entry of the block where it ends. -/
theorem Solution.follow_le {entries exits : Table Name Regions}
    (h : f.Solution kinds P initial entries exits) (hreg : f.Regular c kinds P initial)
    {path : List Name} {n : Name} (hpath : f.Walk path n) (memory : σ) :
    ∃ s m t, f.follow c memory initial path = .ok (s, m) ∧ s.WellFormed P ∧
      entries.get? n = some t ∧ s.view ≤ t.view := by
  induction hpath with
  | start =>
    obtain ⟨t, -, ht, -⟩ := h.reached ReflTransGen.refl
    exact ⟨initial, memory, t, rfl, hreg.initial, ht, (h.above ht).start rfl⟩
  | @step path n n' hwalk hedge ih =>
    obtain ⟨s, m, t, hs, hswf, ht, hle⟩ := ih
    obtain ⟨i, b, hat⟩ := hreg.reached hwalk.reaches
    obtain ⟨r, hr, hrwf, hrview, -⟩ :=
      passBlock_spec hreg.closed hswf hreg.answers false m i (hreg.makes hat)
    obtain ⟨-, e, -, he⟩ := h.reached hwalk.reaches
    obtain ⟨t', -, ht', -⟩ := h.reached (ReflTransGen.tail hwalk.reaches hedge)
    refine ⟨r.regions, r.memory, t', follow_concat hs hat hr, hrwf, ht', ?_⟩
    calc r.regions.view = View.passBlock kinds i b s.view := hrview
      _ ≤ View.passBlock kinds i b t.view :=
        View.passBlock_mono hle (Regions.lawful_view (h.entryWF ht)) b
      _ = e.view := by rw [h.exit ht he, hat.flow]
      _ ≤ t'.view := (h.above ht').edge n e hedge he

/-- What a block reports from a state below its entry is listed. -/
theorem Solution.listed_of_reports {entries exits : Table Name Regions}
    (h : f.Solution kinds P initial entries exits) (hreg : f.Regular c kinds P initial)
    {memory m : σ} {accesses : List Access}
    (hcollect : f.collect c entries 0 memory f.blocks.entries = .ok (accesses, m)) {n : Name}
    {i : Nat} {b : Block} (hat : f.At n i b) {t : Regions} (ht : entries.get? n = some t)
    {A : View} (hle : A ≤ t.view) {q : Point} {v : Name} {kind : AccessKind} {k : Int × Int}
    (hr : View.BlockReports kinds i b A q v kind k) : Listed accesses q v kind k := by
  refine ((h.collected hreg hcollect).2 q v kind k).2 ⟨n, i, b, t, hat, ht, ?_⟩
  exact hr.mono hle (Regions.lawful_view (h.entryWF ht))

-- ============================================================================
-- Coverage
-- ============================================================================

/-- Behind the loop, after going around it once, `x` is read as a value of a region
    that was handed over by the call. -/
theorem sendingLoop_last {initial s : Regions} {m : Unit} {i : Nat} {b : Block}
    {r : Passage Unit} (hinitial : Regions.entry sendingLoop = .ok initial)
    (hs : sendingLoop.follow Classifier.asWritten () initial ["entry", "loop"] = .ok (s, m))
    (hat : sendingLoop.At "done" i b)
    (hr : sendingLoop.passBlock Classifier.asWritten true () s i b = .ok r) :
    ∃ x ∈ r.accesses, x.point = ⟨2, 0, "done"⟩ ∧ x.value = "x" ∧ x.kind = .read ∧
      ∃ site ∈ x.sites, site.point.key = (1, 1) := by
  have hlast : ((Regions.entry sendingLoop).toOption.bind fun initial =>
      (sendingLoop.follow Classifier.asWritten () initial ["entry", "loop"]).toOption.bind fun q =>
      (sendingLoop.blockIndex? "done").bind fun i => (sendingLoop.blocks.get? "done").bind fun b =>
      (sendingLoop.passBlock Classifier.asWritten true () q.1 i b).toOption.map fun r =>
      r.accesses.any fun x => x.point = ⟨2, 0, "done"⟩ ∧ x.value = "x" ∧ x.kind = .read ∧
        ∃ site ∈ x.sites, site.point.key = (1, 1)) = some true := by
    decide +kernel
  simp only [hinitial, hs, hat.blockIndex?, hat.get?, hr, Except.toOption, Option.bind_some,
    Option.map_some, Option.some.injEq, List.any_eq_true, decide_eq_true_eq] at hlast
  exact hlast

/-- Following any path succeeds and leads to regions below the entry of the block
    where it ends. Every access that the block reports from there, and every site
    of it, is among the accesses of the analysis, and has a diagnostic at the
    point of the site whose group has an access with that point and value. -/
theorem solve_covers_paths (hvalid : f.validate = .ok ()) (hc : c.Steady) {memory memory' : σ}
    {bound : Option Int} {a : Analysis}
    (h : f.solve c memory (bound.getD f.iterationBound) = .ok (a, memory')) {initial : Regions}
    (hinitial : Regions.entry f = .ok initial) {path : List Name} {n : Name}
    (hpath : f.Walk path n) (start : σ) :
    ∃ s m t i b, f.follow c start initial path = .ok (s, m) ∧ a.entries.get? n = some t ∧
      s.Below t ∧ f.At n i b ∧ ∀ m', ∃ r, f.passBlock c true m' s i b = .ok r ∧
        ∀ x ∈ r.accesses, ∀ site ∈ x.sites,
          (∃ y ∈ a.accesses, y.point = x.point ∧ y.value = x.value ∧ y.kind = x.kind ∧
            ∃ z ∈ y.sites, z.point.key = site.point.key) ∧
          ∀ config : Config, config.enabled = true → ∃ result g,
            f.check config c memory bound = .ok (result, memory') ∧
            g ∈ groupAccesses a.accesses ∧ g.1.point.key = site.point.key ∧
            (g.1.point, siteDiagnostic config.severity g.1 g.2) ∈ result.bySite ∧
            ∃ y ∈ g.2, y.point.key = x.point.key ∧ y.value = x.value := by
  obtain ⟨initial', p, hinitial', hrun, hempty, hentries, hexits, -, hcollect⟩ := solve_ok h
  obtain rfl := Except.ok.inj (hinitial.symm.trans hinitial')
  have hreg := regular_of_validate hvalid hc memory hinitial
  have hsol := (hrun.invariant hreg (invariant_start hreg.initial memory)).solution hempty
  obtain ⟨s, m, t, hs, hswf, ht, hle⟩ := hsol.follow_le hreg hpath start
  obtain ⟨i, b, hat⟩ := hreg.reached hpath.reaches
  refine ⟨s, m, t, i, b, hs, by rw [hentries]; exact ht,
    Regions.below_of_view_le hswf (hsol.entryWF ht) hle, hat, ?_⟩
  intro m'
  obtain ⟨r, hr, -, -, hreports⟩ :=
    passBlock_spec hreg.closed hswf hreg.answers true m' i (hreg.makes hat)
  refine ⟨r, hr, ?_⟩
  intro x hx site hsite
  have hlisted : Listed a.accesses x.point x.value x.kind site.point.key :=
    hsol.listed_of_reports hreg hcollect hat ht hle
      ((hreports rfl _ _ _ _).1 ⟨x, hx, rfl, rfl, rfl, site, hsite, rfl⟩)
  refine ⟨hlisted, ?_⟩
  intro config henabled
  obtain ⟨y, hy, hpoint, hvalue, -, z, hz, hkey⟩ := hlisted
  obtain ⟨g, hg, hgkey, hgroup⟩ := (groupAccesses_spec a.accesses site.point.key x.point.key
    x.value).2 ⟨y, hy, by rw [hpoint], hvalue, z, hz, hkey⟩
  refine ⟨f.resultOf config.severity a, g, ?_, hg, hgkey, ?_, hgroup⟩
  · rw [check, if_pos henabled, hvalid]
    simp only [h]
  · exact f.mem_bySite_of_group config.severity a hg

/-- Going around the loop once is covered: the use of `x` behind it is an access of the
    analysis with the call as a site, and it is in the group of the diagnostic there. -/
theorem sendingLoop_covered : ∃ a initial s m t, sendingLoop.validate = .ok () ∧
    sendingLoop.solve Classifier.asWritten () ((some 40 : Option Int).getD
      sendingLoop.iterationBound) = .ok (a, ()) ∧
    Regions.entry sendingLoop = .ok initial ∧ sendingLoop.Walk ["entry", "loop"] "done" ∧
    sendingLoop.follow Classifier.asWritten () initial ["entry", "loop"] = .ok (s, m) ∧
    a.entries.get? "done" = some t ∧ s.Below t ∧
    (∃ y ∈ a.accesses, y.point = ⟨2, 0, "done"⟩ ∧ y.value = "x" ∧ y.kind = .read ∧
      ∃ z ∈ y.sites, z.point.key = (1, 1)) ∧
    ∃ result g, sendingLoop.check {} Classifier.asWritten () (some 40) = .ok (result, ()) ∧
      g ∈ groupAccesses a.accesses ∧ g.1.point.key = (1, 1) ∧
      (g.1.point, siteDiagnostic "error" g.1 g.2) ∈ result.bySite ∧
      ∃ y ∈ g.2, y.point.key = (2, 0) ∧ y.value = "x" := by
  obtain ⟨⟨a, _⟩, ha⟩ := sendingLoop_solved
  obtain ⟨initial, hinitial, -⟩ := entry_spec sendingLoop
  have hvalid : sendingLoop.validate = .ok () := by decide +kernel
  have hsolve : sendingLoop.solve Classifier.asWritten () ((some 40 : Option Int).getD
      sendingLoop.iterationBound) = .ok (a, ()) := ha
  have hwalk : sendingLoop.Walk ["entry", "loop"] "done" := by
    have hloop : sendingLoop.Edge "entry" "loop" := mem_predecessors.1 (by decide +kernel)
    have hdone : sendingLoop.Edge "loop" "done" := mem_predecessors.1 (by decide +kernel)
    exact .step (.step .start hloop) hdone
  obtain ⟨s, m, t, i, b, hs, ht, hle, hat, hpass⟩ :=
    solve_covers_paths hvalid asWritten_steady hsolve hinitial hwalk ()
  obtain ⟨r, hr, hcovered⟩ := hpass ()
  obtain ⟨x, hx, hpoint, hvalue, hkind, site, hsite, hkey⟩ := sendingLoop_last hinitial hs hat hr
  obtain ⟨hlisted, hreported⟩ := hcovered x hx site hsite
  obtain ⟨result, g, hcheck, hg, hgkey, hmem, hnoted⟩ := hreported {} rfl
  rw [hpoint, hvalue, hkind, hkey] at hlisted
  rw [hkey] at hgkey
  rw [hpoint, hvalue] at hnoted
  exact ⟨a, initial, s, m, t, hvalid, hsolve, hinitial, hwalk, hs, ht, hle, hlisted, result, g,
    hcheck, hg, hgkey, hmem, hnoted⟩

end Func

end Sendability
