/-
  The result of an analysis solves the data-flow equations.

  A function that passed validation and a classifier whose answers depend on
  the call and the function alone make the worklist theory applicable
  (`regular_of_validate`), with the property of sites that they are what the
  call at their point leaves behind (`Func.Stamped`). When the queue is empty,
  the invariant is a solution (`Invariant.solution`): the blocks with an entry
  are the reached ones, an exit is what its block makes of the entry, and an
  entry is the join of what flows in.

  The last part puts this back into the terms of the analysis, where states are
  compared by `Regions.same` and joined by `Regions.joinAll`.
-/

import Sendability.Proofs.Worklist

namespace Sendability

open Relation (ReflTransGen)

/-- The answers depend on the call and the function alone. -/
def Classifier.Steady {σ : Type} (c : Classifier σ) : Prop :=
  ∀ memory memory' f call, (c.classify memory f call).1 = (c.classify memory' f call).1

theorem Classifier.Steady.answers {σ : Type} {c : Classifier σ} (hc : c.Steady) (f : Func)
    (memory : σ) :
    c.Answers f fun op => (c.crossing memory f op).1 := by
  intro memory' op
  cases op with
  | call call => exact hc memory' memory f call
  | _ => rfl

namespace Func

variable {σ : Type} {f : Func} {c : Classifier σ} {n : Name} {i : Nat} {b : Block}

/-- A site has the callee, the kind and the source of the call at its point. -/
def Stamped (f : Func) (c : Classifier σ) (x : Site) : Prop :=
  ∃ (n : Name) (i : Nat) (b : Block) (j : Nat) (call : Call),
    f.At n i b ∧ b.ops[j]? = some (.call call) ∧ x.point.key = ((i : Int), (j : Int)) ∧
    x.callee = call.callee ∧ (∀ memory, (c.classify memory f call).1 = x.kind) ∧
    x.source = f.domain

theorem stamped_closed (f : Func) (c : Classifier σ) : Site.Closed (f.Stamped c) := by
  rintro x y ⟨n, i, b, j, call, hat, hop, hkey, hcallee, hkind, hsource⟩ - -
  refine ⟨n, i, b, j, call, hat, hop, ?_, ?_, ?_, ?_⟩
  · rw [Site.point_merge, hkey]
  · rw [Site.callee_merge, hcallee]
  · rw [Site.kind_merge]
    exact hkind
  · rw [Site.source_merge, hsource]

/-- The point of a site determines the call, so it determines the rest. -/
theorem stamped_coherent (f : Func) (c : Classifier σ) (memory : σ) :
    Site.Coherent (f.Stamped c) := by
  rintro x y ⟨n, i, b, j, call, hat, hop, hkey, hcallee, hkind, hsource⟩
    ⟨n', i', b', j', call', hat', hop', hkey', hcallee', hkind', hsource'⟩ hxy
  rw [hkey, hkey'] at hxy
  obtain ⟨hi, hj⟩ := Prod.mk.inj hxy
  obtain rfl : i = i' := by omega
  obtain rfl : j = j' := by omega
  obtain ⟨-, rfl⟩ := hat.unique_of_index hat'
  obtain rfl : call = call' := Op.call.inj (Option.some.inj (hop.symm.trans hop'))
  exact ⟨hcallee.trans hcallee'.symm, (hkind memory).symm.trans (hkind' memory),
    hsource.trans hsource'.symm⟩

theorem stamped_makes (hc : c.Steady) (memory : σ) (hat : f.At n i b) :
    f.BlockMakes (f.Stamped c) (fun op => (c.crossing memory f op).1) i b := by
  rintro j op hop call rfl - values types - - -
  exact ⟨n, i, b, j, call, hat, hop, rfl, rfl, fun m => hc m memory f call, rfl⟩

-- ============================================================================
-- The start
-- ============================================================================

/-- The regions at the start exist, have no sites, and link the non-sendable
    parameters. -/
theorem entry_view (f : Func) : ∃ initial, Regions.entry f = .ok initial ∧
    (∀ P, initial.WellFormed P) ∧
    initial.view = View.clique {n | ∃ v ∈ f.params, v.sendable = false ∧ v.name = n} := by
  obtain ⟨params, hparams⟩ :
      ∃ params, params = (f.params.filter fun p => !p.sendable).map Value.name := ⟨_, rfl⟩
  have hset : {n | ∃ v ∈ f.params, v.sendable = false ∧ v.name = n} = {n | n ∈ params} := by
    ext n
    simp [hparams, and_assoc]
  -- no site is made, so the state is well formed for the property that no site has
  have hclosed : Site.Closed fun _ => False := fun _ _ h => h.elim
  obtain ⟨hwf, hnames, hleast⟩ :=
    Regions.foldl_track_spec (Regions.wellFormed_empty (P := fun _ => False)) params
  obtain ⟨initial, hok, hinitial, hview⟩ := Regions.unite_spec hclosed hwf
    fun v hv => (hnames v).2 (.inr hv)
  refine ⟨initial, ?_, ?_, ?_⟩
  · rw [Regions.entry, ← hparams]
    exact hok
  · intro P
    refine ⟨hinitial.partition, ?_⟩
    intro r rec hr
    obtain ⟨h1, h2⟩ := hinitial.records r rec hr
    exact ⟨h1, h2.proper, h2.nonempty, fun x hx => (h2.sites x hx).elim⟩
  · rw [hset, hview]
    refine le_antisymm ?_ ?_
    · refine View.unite_le ?_ (View.lawful_clique _) fun a ha b hb => ⟨ha, hb⟩
      apply hleast _ (View.lawful_clique _)
      · rw [Regions.view_empty]
        exact View.empty_le _
      · exact fun v hv => hv
    · have hlawful := Regions.lawful_view hwf
      have hmeets : ∀ v ∈ params, (params.foldl Regions.track Regions.empty).view.Meets
          {n | n ∈ params} v :=
        fun v hv => ⟨v, hv, hlawful.refl (Regions.view_tracked.2 ((hnames v).2 (.inr hv)))⟩
      exact View.clique_le (hlawful.unite _) fun a ha b hb => .inr ⟨hmeets a ha, hmeets b hb⟩

/-- The regions at the start are below every lawful view that links the
    non-sendable parameters. -/
theorem entry_spec (f : Func) : ∃ initial, Regions.entry f = .ok initial ∧
    (∀ P, initial.WellFormed P) ∧
    ∀ U : View, U.Lawful → (∀ v ∈ f.params, ∀ w ∈ f.params, v.sendable = false →
      w.sendable = false → U.linked v.name w.name) → initial.view ≤ U := by
  obtain ⟨initial, hok, hwf, hview⟩ := entry_view f
  refine ⟨initial, hok, hwf, ?_⟩
  intro U hU hlinked
  rw [hview]
  refine View.clique_le hU ?_
  rintro a ⟨v, hv, hvs, rfl⟩ b ⟨w, hw, hws, rfl⟩
  exact hlinked v hv w hw hvs hws

theorem regular_of_validate (hvalid : f.validate = .ok ()) (hc : c.Steady) (memory : σ)
    {initial : Regions} (hinitial : Regions.entry f = .ok initial) :
    f.Regular c (fun op => (c.crossing memory f op).1) (f.Stamped c) initial where
  closed := stamped_closed f c
  coherent := stamped_coherent f c memory
  answers := hc.answers f memory
  makes := stamped_makes hc memory
  initial := by
    obtain ⟨x, hx, hwf, -⟩ := entry_spec f
    obtain rfl := Except.ok.inj (hinitial.symm.trans hx)
    exact hwf _
  reached := Reaches.exists_at hvalid

-- ============================================================================
-- Solutions
-- ============================================================================

/-- Entries and exits that solve the data-flow equations, and are below every
    family that solves the inequations. -/
structure Solution (f : Func) (kinds : Op → Crossing) (P : Site → Prop) (initial : Regions)
    (entries exits : Table Name Regions) : Prop where
  entryWF : ∀ {n s}, entries.get? n = some s → s.WellFormed P
  exitWF : ∀ {n e}, exits.get? n = some e → e.WellFormed P
  reached : ∀ {n}, f.Reaches n → ∃ s e, entries.get? n = some s ∧ exits.get? n = some e
  only : ∀ {n s}, entries.get? n = some s → f.Reaches n
  onlyExit : ∀ {n e}, exits.get? n = some e → f.Reaches n
  exit : ∀ {n s e}, entries.get? n = some s → exits.get? n = some e →
    e.view = f.flow kinds n s.view
  above : ∀ {n s}, entries.get? n = some s → f.Bounds initial exits n s.view
  below : ∀ {n s}, entries.get? n = some s →
    ∀ U : View, U.Lawful → f.Bounds initial exits n U → s.view ≤ U
  least : ∀ {X : Name → View}, f.Solves kinds initial X →
    ∀ {n s}, entries.get? n = some s → s.view ≤ X n

variable {kinds : Op → Crossing} {P : Site → Prop} {initial : Regions}

/-- With an empty queue every block with an entry is settled. -/
theorem Invariant.solution {p : Progress σ} (h : Invariant f kinds P initial [] p)
    (hempty : p.queue = []) : f.Solution kinds P initial p.entries p.exits := by
  have hsettled : ∀ {n s}, p.entries.get? n = some s →
      ∃ e, p.exits.get? n = some e ∧ e.view = f.flow kinds n s.view := by
    intro n s hs
    exact h.settled hs (by simp [hempty])
  refine ⟨fun hs => (h.entries hs).1, fun he => (h.exits he).1, ?_, fun hs => (h.entries hs).2, ?_,
    ?_, fun hs => h.above hs (by simp), h.below, h.least⟩
  · -- along a path, each block has an exit, so the next one has an entry
    intro n hn
    have hentry : ∃ s, p.entries.get? n = some s := by
      induction hn with
      | refl => exact h.started
      | tail _ hedge ih =>
        obtain ⟨s, hs⟩ := ih
        obtain ⟨e, he, -⟩ := hsettled hs
        exact h.onward he hedge (by simp)
    obtain ⟨s, hs⟩ := hentry
    obtain ⟨e, he, -⟩ := hsettled hs
    exact ⟨s, e, hs, he⟩
  · intro n e he
    obtain ⟨-, s, hs, -⟩ := h.exits he
    exact (h.entries hs).2
  · intro n s e hs he
    obtain ⟨e', he', hview⟩ := hsettled hs
    obtain rfl := Option.some.inj (he.symm.trans he')
    exact hview

/-- The last pass succeeds and lists what the blocks report from their entries. -/
theorem collect_spec (hreg : f.Regular c kinds P initial) {entries : Table Name Regions}
    (hentries : ∀ n s, entries.get? n = some s → s.WellFormed P) {l : List (Name × Block)}
    {i : Nat} (hl : ∀ j n b, l[j]? = some (n, b) → f.At n (i + j) b) (memory : σ) :
    ∃ accesses m, f.collect c entries i memory l = .ok (accesses, m) ∧ AllSites P accesses ∧
      ∀ q v kind k, Listed accesses q v kind k ↔ ∃ j n b s, l[j]? = some (n, b) ∧
        entries.get? n = some s ∧
        View.BlockReports kinds ((i + j : Nat) : Int) b s.view q v kind k := by
  induction l generalizing i memory with
  | nil => exact ⟨[], memory, rfl, by simp [AllSites], by simp [Listed]⟩
  | cons x l ih =>
    obtain ⟨n, b⟩ := x
    have hnumber : ∀ j, i + (j + 1) = i + 1 + j := by omega
    have hrest : ∀ j n b, l[j]? = some (n, b) → f.At n (i + 1 + j) b := by
      intro j n' b' hj
      rw [← hnumber]
      exact hl (j + 1) n' b' hj
    -- what is reported comes from the first block or from the others
    have hsplit : ∀ q v kind k, (∃ j n' b' s, ((n, b) :: l)[j]? = some (n', b') ∧
          entries.get? n' = some s ∧
          View.BlockReports kinds ((i + j : Nat) : Int) b' s.view q v kind k) ↔
        (∃ s, entries.get? n = some s ∧ View.BlockReports kinds (i : Int) b s.view q v kind k) ∨
          ∃ j n' b' s, l[j]? = some (n', b') ∧ entries.get? n' = some s ∧
            View.BlockReports kinds ((i + 1 + j : Nat) : Int) b' s.view q v kind k := by
      intro q v kind k
      refine ⟨?_, ?_⟩
      · rintro ⟨j, n', b', s, hj, hs, hr⟩
        cases j with
        | zero =>
          obtain ⟨rfl, rfl⟩ := Prod.mk.inj (Option.some.inj hj)
          exact .inl ⟨s, hs, hr⟩
        | succ j =>
          rw [hnumber] at hr
          exact .inr ⟨j, n', b', s, hj, hs, hr⟩
      · rintro (⟨s, hs, hr⟩ | ⟨j, n', b', s, hj, hs, hr⟩)
        · exact ⟨0, n, b, s, rfl, hs, hr⟩
        · rw [← hnumber] at hr
          exact ⟨j + 1, n', b', s, hj, hs, hr⟩
    cases hs : entries.get? n with
    | none =>
      obtain ⟨accesses, m, hok, hsites, hlisted⟩ := ih hrest memory
      refine ⟨accesses, m, ?_, hsites, ?_⟩
      · rw [collect, hs]
        exact hok
      · intro q v kind k
        rw [hlisted, hsplit]
        simp [hs]
    | some s =>
      have hat : f.At n i b := hl 0 n b rfl
      obtain ⟨r, hr, -, -, hrsites, hreports⟩ :=
        passBlock_sites hreg.closed (hentries n s hs) hreg.answers true memory i (hreg.makes hat)
      obtain ⟨accesses, m, hok, hsites, hlisted⟩ := ih hrest r.memory
      refine ⟨r.accesses ++ accesses, m, ?_, hrsites.append hsites, ?_⟩
      · rw [collect, hs]
        simp only [hr, hok, bind, Except.bind, pure, Except.pure]
      · intro q v kind k
        rw [listed_append, hreports rfl, hlisted, hsplit]
        simp [hs]

/-- The last pass over all the blocks of a function. -/
theorem collect_all (hreg : f.Regular c kinds P initial) {entries : Table Name Regions}
    (hentries : ∀ n s, entries.get? n = some s → s.WellFormed P) (memory : σ) :
    ∃ accesses m, f.collect c entries 0 memory f.blocks.entries = .ok (accesses, m) ∧
      AllSites P accesses ∧ ∀ q v kind k, Listed accesses q v kind k ↔ ∃ n i b s, f.At n i b ∧
        entries.get? n = some s ∧ View.BlockReports kinds i b s.view q v kind k := by
  have hall : ∀ j n b, f.blocks.entries[j]? = some (n, b) → f.At n (0 + j) b := by
    intro j n b hj
    rw [Nat.zero_add]
    exact hj
  obtain ⟨accesses, m, hok, hsites, hlisted⟩ := collect_spec hreg hentries hall memory
  refine ⟨accesses, m, hok, hsites, ?_⟩
  intro q v kind k
  rw [hlisted]
  simp only [Nat.zero_add]
  refine ⟨?_, ?_⟩
  · rintro ⟨i, n, b, s, hat, hs, hr⟩
    exact ⟨n, i, b, s, hat, hs, hr⟩
  · rintro ⟨n, i, b, s, hat, hs, hr⟩
    exact ⟨i, n, b, s, hat, hs, hr⟩

/-- What the last pass lists from the entries of a solution. -/
theorem Solution.collected {entries exits : Table Name Regions}
    (h : f.Solution kinds P initial entries exits) (hreg : f.Regular c kinds P initial)
    {memory m : σ} {accesses : List Access}
    (hcollect : f.collect c entries 0 memory f.blocks.entries = .ok (accesses, m)) :
    AllSites P accesses ∧ ∀ q v kind k, Listed accesses q v kind k ↔ ∃ n i b s, f.At n i b ∧
      entries.get? n = some s ∧ View.BlockReports kinds i b s.view q v kind k := by
  obtain ⟨l, m', hok, hsites, hlisted⟩ := collect_all hreg (fun _ _ hs => h.entryWF hs) memory
  obtain ⟨rfl, -⟩ := Prod.mk.inj (Except.ok.inj (hcollect.symm.trans hok))
  exact ⟨hsites, hlisted⟩

/-- What an analysis has run through. -/
theorem solve_ok {memory memory' : σ} {bound : Int} {a : Analysis}
    (h : f.solve c memory bound = .ok (a, memory')) :
    ∃ initial p, Regions.entry f = .ok initial ∧
      f.Run c initial (f.startProgress initial memory) p ∧ p.queue = [] ∧
      a.entries = p.entries ∧ a.exits = p.exits ∧ a.evaluations = p.evaluations ∧
      f.collect c p.entries 0 p.memory f.blocks.entries = .ok (a.accesses, memory') := by
  obtain ⟨initial, hinitial, -⟩ := entry_spec f
  simp only [solve, hinitial, orUntracked, bind, Except.bind, pure, Except.pure] at h
  split at h
  · cases h
  · rename_i p hp
    obtain ⟨hrun, hempty⟩ := drain_ok hp
    split at h
    · cases h
    · rename_i r hr
      obtain ⟨rfl, rfl⟩ := Prod.mk.inj (Except.ok.inj h)
      refine ⟨initial, p, hinitial, hrun, hempty, rfl, rfl, rfl, ?_⟩
      cases hcol : f.collect c p.entries 0 p.memory f.blocks.entries with
      | error e =>
        rw [hcol] at hr
        cases hr
      | ok x =>
        rw [hcol] at hr
        obtain rfl := Except.ok.inj hr
        rfl

-- ============================================================================
-- The equations
-- ============================================================================

/-- A state flows into a block: the one at the start into the entry, and the exit
    of a reached predecessor. -/
def FlowsInto (f : Func) (initial : Regions) (exits : Name → Option Regions) (n : Name)
    (x : Regions) : Prop :=
  (n = f.entry ∧ x = initial) ∨ ∃ p, f.Reaches p ∧ f.Edge p n ∧ exits p = some x

theorem Solution.mem_incoming_iff {entries exits : Table Name Regions}
    (h : f.Solution kinds P initial entries exits) (n : Name) (x : Regions) :
    x ∈ f.incoming initial exits n ↔ f.FlowsInto initial exits.get? n x := by
  rw [mem_incoming]
  refine or_congr_right ⟨?_, ?_⟩
  · rintro ⟨p, hp, hx⟩
    exact ⟨p, h.onlyExit hx, hp, hx⟩
  · rintro ⟨p, -, hp, hx⟩
    exact ⟨p, hp, hx⟩

/-- The states that flow into a reached block, in any order and listed any number
    of times, are joined to its entry. -/
theorem Solution.join_eq {entries exits : Table Name Regions}
    (h : f.Solution kinds P initial entries exits) (hP : Site.Closed P)
    (hinitial : initial.WellFormed P) {s : Regions} (hs : entries.get? n = some s)
    {l : List Regions} (hl : ∀ x, x ∈ l ↔ f.FlowsInto initial exits.get? n x) :
    ∃ first rest j, l = first :: rest ∧ first.joinAll rest = .ok j ∧ j.WellFormed P ∧
      s.view = j.view := by
  have hwf : ∀ x ∈ l, x.WellFormed P := by
    intro x hx
    rcases (hl x).1 hx with ⟨-, rfl⟩ | ⟨p, -, -, he⟩
    · exact hinitial
    · exact h.exitWF he
  have hbounds : ∀ U, f.Bounds initial exits n U ↔ ∀ x ∈ l, x.view ≤ U := by
    intro U
    rw [bounds_iff]
    simp only [h.mem_incoming_iff, hl]
  cases l with
  | nil =>
    -- a reached block is the entry or has a reached predecessor
    exfalso
    rcases ReflTransGen.cases_tail (h.only hs) with rfl | ⟨p, hp, hedge⟩
    · exact List.not_mem_nil ((hl initial).2 (.inl ⟨rfl, rfl⟩))
    · obtain ⟨-, e, -, he⟩ := h.reached hp
      exact List.not_mem_nil ((hl e).2 (.inr ⟨p, hp, hedge, he⟩))
  | cons first rest =>
    obtain ⟨j, hj, hjwf, hjoin⟩ := Regions.joinAll_spec hP (hwf first (by simp))
      fun x hx => hwf x (List.mem_cons_of_mem _ hx)
    refine ⟨first, rest, j, rfl, hj, hjwf, le_antisymm ?_ ?_⟩
    · apply h.below hs j.view (Regions.lawful_view hjwf)
      exact (hbounds j.view).2 fun x hx => hjoin.upper x.view ⟨x, hx, rfl⟩
    · apply hjoin.least s.view (Regions.lawful_view (h.entryWF hs))
      rintro A ⟨x, hx, rfl⟩
      exact (hbounds s.view).1 (h.above hs) x hx

theorem Solution.keys_entries {entries exits : Table Name Regions}
    (h : f.Solution kinds P initial entries exits) (n : Name) :
    n ∈ entries.keys ↔ f.Reaches n := by
  rw [Table.mem_keys_iff, Option.isSome_iff_exists]
  refine ⟨?_, ?_⟩
  · rintro ⟨s, hs⟩
    exact h.only hs
  · intro hn
    obtain ⟨s, -, hs, -⟩ := h.reached hn
    exact ⟨s, hs⟩

theorem Solution.keys_exits {entries exits : Table Name Regions}
    (h : f.Solution kinds P initial entries exits) (n : Name) :
    n ∈ exits.keys ↔ f.Reaches n := by
  rw [Table.mem_keys_iff, Option.isSome_iff_exists]
  refine ⟨?_, ?_⟩
  · rintro ⟨e, he⟩
    exact h.onlyExit he
  · intro hn
    obtain ⟨-, e, -, he⟩ := h.reached hn
    exact ⟨e, he⟩

/-- The entries and exits of an analysis belong to the reached blocks and solve
    the data-flow equations, up to `Regions.same`. -/
theorem solve_equations (hvalid : f.validate = .ok ()) (hc : c.Steady) {memory memory' : σ}
    {bound : Int} {a : Analysis} (h : f.solve c memory bound = .ok (a, memory')) :
    (∀ n, n ∈ a.entries.keys ↔ f.Reaches n) ∧ (∀ n, n ∈ a.exits.keys ↔ f.Reaches n) ∧
    ∃ initial, Regions.entry f = .ok initial ∧ ∀ n, f.Reaches n →
      ∃ i b s e, f.At n i b ∧ a.entries.get? n = some s ∧ a.exits.get? n = some e ∧
        (∀ watch m, ∃ r, f.passBlock c watch m s i b = .ok r ∧ e.same r.regions = .ok true) ∧
        (∃ l : List Regions, ∀ x, x ∈ l ↔ f.FlowsInto initial a.exits.get? n x) ∧
        ∀ l : List Regions, (∀ x, x ∈ l ↔ f.FlowsInto initial a.exits.get? n x) →
          ∃ first rest j, l = first :: rest ∧ first.joinAll rest = .ok j ∧
            s.same j = .ok true := by
  obtain ⟨initial, p, hinitial, hrun, hempty, hentries, hexits, -, -⟩ := solve_ok h
  have hreg := regular_of_validate hvalid hc memory hinitial
  have hsol := (hrun.invariant hreg (invariant_start hreg.initial memory)).solution hempty
  rw [← hentries, ← hexits] at hsol
  refine ⟨hsol.keys_entries, hsol.keys_exits, initial, hinitial, ?_⟩
  intro n hn
  obtain ⟨i, b, hat⟩ := hreg.reached hn
  obtain ⟨s, e, hs, he⟩ := hsol.reached hn
  refine ⟨i, b, s, e, hat, hs, he, ?_, ⟨_, hsol.mem_incoming_iff n⟩, ?_⟩
  · intro watch m
    obtain ⟨r, hr, hrwf, hrview, -⟩ :=
      passBlock_spec hreg.closed (hsol.entryWF hs) hreg.answers watch m i (hreg.makes hat)
    refine ⟨r, hr, Regions.same_of_view hreg.coherent (hsol.exitWF he) hrwf ?_⟩
    rw [hsol.exit hs he, hat.flow, hrview]
  · intro l hl
    obtain ⟨first, rest, j, rfl, hj, hjwf, hview⟩ := hsol.join_eq hreg.closed hreg.initial hs hl
    exact ⟨first, rest, j, rfl, hj,
      Regions.same_of_view hreg.coherent (hsol.entryWF hs) hjwf hview⟩

/-- A loop that sends a new value built from the parameter at every turn, and a
    use of the parameter after it. -/
def sendingLoop : Func :=
  let box : TypeInfo := ⟨"Box", false⟩
  { name := "relay"
    params := [⟨"x", box⟩]
    blocks := Table.ofList
      [("entry", ⟨"entry", [], some (.goto "loop" {})⟩),
       ("loop", ⟨"loop",
         [.init ⟨"y", box⟩ [⟨"x", box⟩] {},
          .call { callee := "send", args := [⟨"y", box⟩], domain := some "worker" }],
         some (.branch ["loop", "done"] none {})⟩),
       ("done", ⟨"done", [.use ⟨"x", box⟩ .read {}], some (.ret none {})⟩)] }

theorem asWritten_steady {σ : Type} : (Classifier.asWritten : Classifier σ).Steady :=
  fun _ _ _ _ => rfl

theorem sendingLoop_solved : ∃ r, sendingLoop.solve Classifier.asWritten () 40 = .ok r := by
  have h : (sendingLoop.solve Classifier.asWritten () 40).toOption.isSome = true := by
    decide +kernel
  exact exists_ok_of_isSome h

theorem sendingLoop_equations : ∃ a, sendingLoop.validate = .ok () ∧
    sendingLoop.solve Classifier.asWritten () 40 = .ok (a, ()) ∧
    ∀ n, n ∈ a.entries.keys ↔ sendingLoop.Reaches n := by
  obtain ⟨⟨a, _⟩, ha⟩ := sendingLoop_solved
  have hvalid : sendingLoop.validate = .ok () := by decide +kernel
  exact ⟨a, hvalid, ha, (solve_equations hvalid asWritten_steady ha).1⟩

end Func

end Sendability
