/-
  Queries cannot be seen.

  A `Store` holds states under names. `Store.run` takes steps on it, queries and
  changes, and lists the answers. Every step takes stores that are alike to
  stores that are alike, with one answer (`Step.run_lockstep`), and a query
  leaves a store that is alike to the one it was put to (`Step.kin_of_query`).
  So a run without its queries gives the same answers to the changes, and no
  later step can tell the difference (`Store.run_filter`).

  Watching for accesses is asking queries. When an analysis has come to its end,
  the exit of every block is what a pass over it gives (`Func.Current`), watched
  or not.
-/

import Mathlib.Logic.Function.Basic
import Sendability.Proofs.Lockstep

namespace Sendability

-- ============================================================================
-- Steps on a store of states
-- ============================================================================

/-- What can be asked about a state. -/
inductive Query where
  | find (v : Name)
  | sameRegion (a b : Name)
  | isTransferred (v : Name)
  | sitesFor (v : Name)
  | recordFor (v : Name)
  | classes
  | canonical

/-- What can be done to a state. -/
inductive Change where
  | track (v : Name)
  | union (first : Name) (others : List Name)
  | redefine (v : Name)
  | mark (v : Name) (site : Site)

/-- What a step answers. -/
inductive Answer where
  | done
  | name (r : Name)
  | truth (b : Bool)
  | sites (l : List Site)
  | record (r : Record)
  | groups (t : Table Name (List Name))
  | views (l : List RegionView)

/-- An outcome with its answer as one of the kinds of answers. -/
def answering {α : Type} (kind : α → Answer) (x : Except Untracked (α × Regions)) :
    Except Untracked (Answer × Regions) :=
  x.map fun r => (kind r.1, r.2)

/-- The answer to a query, and the state after it. -/
def Query.ask (s : Regions) : Query → Except Untracked (Answer × Regions)
  | .find v => answering .name (s.find v)
  | .sameRegion a b => answering .truth (s.sameRegion a b)
  | .isTransferred v => answering .truth (s.isTransferred v)
  | .sitesFor v => answering .sites (s.sitesFor v)
  | .recordFor v => answering .record (s.recordFor v)
  | .classes => answering .groups s.classes
  | .canonical => answering .views s.canonical

/-- The answer to a change, and the state after it. -/
def Change.make (s : Regions) : Change → Except Untracked (Answer × Regions)
  | .track v => .ok (.done, s.track v)
  | .union first others => answering .name (s.union first others)
  | .redefine v => (s.redefine v).map fun t => (.done, t)
  | .mark v site => (s.mark v site).map fun t => (.done, t)

/-- States under names. -/
abbrev Store : Type := Name → Regions

/-- A query or a change of one state, a comparison of two, or a join of two that
    is stored as a third. -/
inductive Step where
  | ask (n : Name) (q : Query)
  | compare (m n : Name)
  | change (n : Name) (c : Change)
  | join (m n target : Name)

namespace Step

/-- Whether a step is more than a query. -/
def changes : Step → Bool
  | .ask .. => false
  | .compare .. => false
  | .change .. => true
  | .join .. => true

/-- The answer to a step, and the store after it. A comparison looks at the
    canonical forms of both states, and a join looks up the names of both. -/
def run (store : Store) : Step → Except Untracked (Answer × Store)
  | .ask n q => do
    let (answer, s) ← q.ask (store n)
    return (answer, Function.update store n s)
  | .compare m n => do
    let same ← (store m).same (store n)
    let (_, s) ← Query.canonical.ask (store m)
    let store := Function.update store m s
    let (_, t) ← Query.canonical.ask (store n)
    return (.truth same, Function.update store n t)
  | .change n c => do
    let (answer, s) ← c.make (store n)
    return (answer, Function.update store n s)
  | .join m n target => do
    let (u, s, t) ← (store m).joinFrom (store n)
    return (.done, Function.update (Function.update (Function.update store m s) n t) target u)

/-- A step that fails leaves the store as it is. -/
def take (store : Store) (step : Step) : Except Untracked Answer × Store :=
  match step.run store with
  | .ok (answer, store) => (.ok answer, store)
  | .error e => (.error e, store)

end Step

/-- Takes steps in turn: every step with its answer, and the store at the end. -/
def Store.run (store : Store) : List Step → List (Step × Except Untracked Answer) × Store
  | [] => ([], store)
  | step :: rest =>
    let taken := step.take store
    let ran := Store.run taken.2 rest
    ((step, taken.1) :: ran.1, ran.2)

-- ============================================================================
-- Queries
-- ============================================================================

namespace Regions

variable {s t s' t' : Regions}

theorem recordFor_alike (hs : s.partition.WellFormed) {v : Name} {rec : Record}
    (h : s.recordFor v = .ok (rec, t)) : Alike s t := by
  rw [recordFor] at h
  split at h
  · cases h
  · rename_i hf
    obtain ⟨-, rfl⟩ := Prod.mk.inj (Except.ok.inj h)
    exact (find_ok hs hf).2

/-- A query that reads the record of a tracked name leaves the state alike. -/
theorem alike_of_recordFor {α : Type} {x : Except Untracked (α × Regions)} {a : α}
    (hs : s.partition.WellFormed) (v : Name) (g : Record → α) (other : α)
    (hx : x = if s.isTracked v then (s.recordFor v).map fun r => (g r.1, r.2) else .ok (other, s))
    (h : x = .ok (a, t)) : Alike s t := by
  rw [hx] at h
  split at h
  · obtain ⟨⟨rec, u⟩, hr, h⟩ := ok_of_map h
    obtain ⟨-, rfl⟩ := Prod.mk.inj h
    exact recordFor_alike hs hr
  · obtain ⟨-, rfl⟩ := Prod.mk.inj (Except.ok.inj h)
    exact Alike.refl s

theorem classes_alike (hs : s.partition.WellFormed) {groups : Table Name (List Name)}
    (h : s.classes = .ok (groups, t)) : Alike s t := by
  obtain ⟨⟨groups', p⟩, hp, h⟩ := ok_of_bind h
  obtain ⟨-, rfl⟩ := Prod.mk.inj (Except.ok.inj h)
  obtain ⟨groups'', q, hq, halike, -⟩ := Partition.classes_spec hs
  obtain ⟨-, rfl⟩ := Prod.mk.inj (Except.ok.inj (hp.symm.trans hq))
  exact ⟨halike, rfl⟩

theorem ok_of_answering {α : Type} {kind : α → Answer} {x : Except Untracked (α × Regions)}
    {answer : Answer} (h : answering kind x = .ok (answer, t)) : ∃ a, x = .ok (a, t) := by
  obtain ⟨⟨a, u⟩, hx, h⟩ := ok_of_map h
  obtain ⟨-, rfl⟩ := Prod.mk.inj h
  exact ⟨a, hx⟩

/-- A query leaves the state as it is but for the lengths of paths. -/
theorem ask_alike (hs : s.partition.WellFormed) {q : Query} {answer : Answer}
    (h : q.ask s = .ok (answer, t)) : Alike s t := by
  cases q with
  | find v =>
    obtain ⟨r, h⟩ := ok_of_answering h
    exact (find_ok hs h).2
  | sameRegion a b =>
    obtain ⟨same, h⟩ := ok_of_answering h
    exact sameRegion_alike hs h
  | isTransferred v =>
    obtain ⟨transferred, h⟩ := ok_of_answering h
    refine alike_of_recordFor hs v Record.transferred false ?_ h
    rw [isTransferred]
    cases s.recordFor v <;> rfl
  | sitesFor v =>
    obtain ⟨sites, h⟩ := ok_of_answering h
    refine alike_of_recordFor hs v Record.sites [] ?_ h
    rw [sitesFor]
    cases s.recordFor v <;> rfl
  | recordFor v =>
    obtain ⟨rec, h⟩ := ok_of_answering h
    exact recordFor_alike hs h
  | classes =>
    obtain ⟨groups, h⟩ := ok_of_answering h
    exact classes_alike hs h
  | canonical =>
    obtain ⟨views, h⟩ := ok_of_answering h
    obtain ⟨⟨groups, u⟩, hu, h⟩ := ok_of_bind h
    obtain ⟨-, rfl⟩ := Prod.mk.inj (Except.ok.inj h)
    exact classes_alike hs hu

theorem fst_answering {α : Type} (kind : α → Answer) (x : Except Untracked (α × Regions)) :
    (answering kind x).map Prod.fst = (x.map Prod.fst).map kind := by
  cases x with
  | error e => rfl
  | ok r => rfl

/-- States that are alike give every query one answer. -/
theorem ask_answer (h : Kin s t) (q : Query) :
    (q.ask t).map Prod.fst = (q.ask s).map Prod.fst := by
  have hsame := h.alike.indistinct h.wellFormed
  cases q with
  | find v => simp only [Query.ask, fst_answering, hsame.find]
  | sameRegion a b => simp only [Query.ask, fst_answering, hsame.sameRegion]
  | isTransferred v => simp only [Query.ask, fst_answering, hsame.isTransferred]
  | sitesFor v => simp only [Query.ask, fst_answering, hsame.sitesFor]
  | recordFor v => simp only [Query.ask, fst_answering, hsame.recordFor]
  | classes => simp only [Query.ask, fst_answering, hsame.classes]
  | canonical => simp only [Query.ask, fst_answering, hsame.canonical]

theorem ask_lockstep (h : Kin s t) (q : Query) :
    Lockstep (Answered Kin) (q.ask s) (q.ask t) := by
  have ht := h.alike.partition.wellFormed h.wellFormed
  have hanswer := ask_answer h q
  cases hx : q.ask s with
  | error e =>
    cases hy : q.ask t with
    | error e' =>
      rw [hx, hy] at hanswer
      cases hanswer
      exact .error e
    | ok y =>
      rw [hx, hy] at hanswer
      cases hanswer
  | ok x =>
    obtain ⟨a, s'⟩ := x
    cases hy : q.ask t with
    | error e' =>
      rw [hx, hy] at hanswer
      cases hanswer
    | ok y =>
      obtain ⟨b, t'⟩ := y
      rw [hx, hy] at hanswer
      obtain rfl : b = a := Except.ok.inj hanswer
      have hs' := ask_alike h.wellFormed hx
      have ht' := ask_alike ht hy
      exact .ok (.intro b ⟨hs'.partition.wellFormed h.wellFormed,
        hs'.symm.trans (h.alike.trans ht')⟩)

theorem same_congr (h : Kin s t) (h' : Kin s' t') : t.same t' = s.same s' := by
  have hsame : ∀ u w : Regions, u.same w = (u.canonical.map Prod.fst) >>= fun a =>
      (w.canonical.map Prod.fst) >>= fun b => .ok (decide (a = b)) := by
    intro u w
    rw [same]
    cases u.canonical with
    | error e => rfl
    | ok x =>
      simp only [bind, Except.bind, Except.map]
      cases w.canonical with
      | error e => rfl
      | ok y => rfl
  rw [hsame, hsame, (h.alike.indistinct h.wellFormed).canonical,
    (h'.alike.indistinct h'.wellFormed).canonical]

theorem make_lockstep (h : Kin s t) (c : Change) :
    Lockstep (Answered Kin) (c.make s) (c.make t) := by
  cases c with
  | track v => exact .ok (.intro Answer.done (kin_track h v))
  | union first others =>
    refine (union_lockstep h first others).map ?_
    rintro _ _ ⟨top, hkin⟩
    exact .intro _ hkin
  | redefine v => exact (redefine_lockstep h v).map fun _ _ hkin => .intro Answer.done hkin
  | mark v site => exact (mark_lockstep h v site).map fun _ _ hkin => .intro Answer.done hkin

end Regions

-- ============================================================================
-- Runs
-- ============================================================================

/-- States of one name are alike. -/
def Store.Kin (σ τ : Store) : Prop := ∀ n, (σ n).Kin (τ n)

namespace Store

variable {σ τ υ : Store} {n : Name} {s t : Regions}

theorem Kin.trans (h : σ.Kin τ) (h' : τ.Kin υ) : σ.Kin υ :=
  fun n => ⟨(h n).wellFormed, (h n).alike.trans (h' n).alike⟩

theorem Kin.symm (h : σ.Kin τ) : τ.Kin σ :=
  fun n => ⟨(h n).alike.partition.wellFormed (h n).wellFormed, (h n).alike.symm⟩

theorem Kin.update (h : σ.Kin τ) (n : Name) (hst : s.Kin t) :
    Store.Kin (Function.update σ n s) (Function.update τ n t) := by
  intro m
  by_cases hm : m = n
  · subst hm
    rw [Function.update_self, Function.update_self]
    exact hst
  · rw [Function.update_of_ne hm, Function.update_of_ne hm]
    exact h m

/-- A query put to one state leaves a store that is alike. -/
theorem Kin.ask (h : σ.Kin σ) {q : Query} {answer : Answer} (hask : q.ask (σ n) = .ok (answer, t)) :
    σ.Kin (Function.update σ n t) := by
  have hkin : (σ n).Kin t := ⟨(h n).wellFormed, Regions.ask_alike (h n).wellFormed hask⟩
  have hstore := h.update n hkin
  rwa [Function.update_eq_self] at hstore

end Store

namespace Step

variable {σ τ : Store} {step : Step}

/-- A step gives stores that are alike one answer, and leaves them alike. -/
theorem run_lockstep (h : σ.Kin τ) (step : Step) :
    Lockstep (Answered Store.Kin) (step.run σ) (step.run τ) := by
  cases step with
  | ask n q =>
    refine (Regions.ask_lockstep (h n) q).bind ?_
    rintro _ _ ⟨answer, hkin⟩
    exact .ok (.intro answer (h.update n hkin))
  | compare m n =>
    rw [run, run, Regions.same_congr (h m) (h n)]
    cases (σ m).same (σ n) with
    | error e => exact .error e
    | ok same =>
      refine (Regions.ask_lockstep (h m) .canonical).bind ?_
      rintro _ _ ⟨_, hm⟩
      have hnext := h.update m hm
      refine (Regions.ask_lockstep (hnext n) .canonical).bind ?_
      rintro _ _ ⟨_, hn⟩
      exact .ok (.intro _ (hnext.update n hn))
  | change n c =>
    refine (Regions.make_lockstep (h n) c).bind ?_
    rintro _ _ ⟨answer, hkin⟩
    exact .ok (.intro answer (h.update n hkin))
  | join m n target =>
    refine (Regions.joinFrom_lockstep (h m) (h n)).bind ?_
    rintro ⟨u, s, t⟩ ⟨u', s', t'⟩ ⟨hu, hs, ht⟩
    exact .ok (.intro _ (((h.update m hs).update n ht).update target hu))

/-- A query leaves a store that is alike. -/
theorem kin_of_query (h : σ.Kin σ) (hquery : step.changes = false) {answer : Answer}
    (hrun : step.run σ = .ok (answer, τ)) : σ.Kin τ := by
  cases step with
  | ask n q =>
    obtain ⟨⟨a, s⟩, hask, hrun⟩ := ok_of_bind hrun
    obtain ⟨-, rfl⟩ := Prod.mk.inj (Except.ok.inj hrun)
    exact h.ask hask
  | compare m n =>
    obtain ⟨same, -, hrun⟩ := ok_of_bind hrun
    obtain ⟨⟨a, s⟩, hm, hrun⟩ := ok_of_bind hrun
    obtain ⟨⟨b, t⟩, hn, hrun⟩ := ok_of_bind hrun
    obtain ⟨-, rfl⟩ := Prod.mk.inj (Except.ok.inj hrun)
    have hfirst := h.ask hm
    exact hfirst.trans ((hfirst.symm.trans hfirst).ask hn)
  | change n c => cases hquery
  | join m n target => cases hquery

theorem take_congr (h : σ.Kin τ) (step : Step) :
    (step.take σ).1 = (step.take τ).1 ∧ Store.Kin (step.take σ).2 (step.take τ).2 := by
  have hstep := run_lockstep h step
  rw [take, take]
  generalize step.run σ = x at hstep
  generalize step.run τ = y at hstep
  cases hstep with
  | error e => exact ⟨rfl, h⟩
  | ok hab =>
    cases hab with
    | intro answer hkin => exact ⟨rfl, hkin⟩

theorem take_query (h : σ.Kin τ) (hquery : step.changes = false) :
    Store.Kin (step.take σ).2 τ := by
  rw [take]
  cases hrun : step.run σ with
  | error e => exact h
  | ok x => exact (kin_of_query (h.trans h.symm) hquery hrun).symm.trans h

end Step

namespace Store

variable {σ τ : Store}

/-- No step of a run can tell stores that are alike from each other. -/
theorem run_congr (h : σ.Kin τ) (steps : List Step) : (σ.run steps).1 = (τ.run steps).1 := by
  induction steps generalizing σ τ with
  | nil => rfl
  | cons step rest ih =>
    obtain ⟨hanswer, hkin⟩ := Step.take_congr h step
    rw [run, run, hanswer, ih hkin]

/-- A run without its queries gives the same answers to the changes, and ends in a
    store that is alike. -/
theorem run_filter (h : σ.Kin τ) (steps : List Step) :
    (σ.run steps).1.filter (fun e => e.1.changes) = (τ.run (steps.filter Step.changes)).1 ∧
      Store.Kin (σ.run steps).2 (τ.run (steps.filter Step.changes)).2 := by
  induction steps generalizing σ τ with
  | nil => exact ⟨rfl, h⟩
  | cons step rest ih =>
    cases hchanges : step.changes with
    | true =>
      obtain ⟨hanswer, hkin⟩ := Step.take_congr h step
      obtain ⟨hanswers, hend⟩ := ih hkin
      simp only [List.filter_cons, hchanges, if_true, run, hanswer, hanswers]
      exact ⟨trivial, hend⟩
    | false =>
      obtain ⟨hanswers, hend⟩ := ih (Step.take_query h hchanges)
      simp only [List.filter_cons, hchanges, Bool.false_eq_true, if_false, run, hanswers]
      exact ⟨trivial, hend⟩

end Store

-- ============================================================================
-- The states of an analysis
-- ============================================================================

namespace Func

variable {σ : Type} {f : Func} {c : Classifier σ} {initial s : Regions} {p q : Progress σ}

/-- A block with an entry is queued, or its exit is what a pass over it gives from
    that entry. -/
structure Current (f : Func) (c : Classifier σ) (p : Progress σ) : Prop where
  entries : ∀ {n s}, p.entries.get? n = some s → s.Sound
  exits : ∀ {n e}, p.exits.get? n = some e → e.Sound
  passed : ∀ {n s}, p.entries.get? n = some s → n ∈ p.queue ∨ ∃ i b memory r,
    f.At n i b ∧ f.passBlock c false memory s i b = .ok r ∧ p.exits.get? n = some r.regions

theorem Current.set (h : f.Current c p) (hs : s.Sound) (n : Name) :
    f.Current c { p with entries := p.entries.insert n s, queue := enqueue p.queue n } := by
  refine ⟨?_, h.exits, ?_⟩
  · intro m t ht
    rw [Table.get?_insert] at ht
    split at ht
    · rw [← Option.some.inj ht]
      exact hs
    · exact h.entries ht
  · intro m t ht
    rw [Table.get?_insert] at ht
    split at ht
    · rename_i hnm
      exact .inl (mem_enqueue.2 (.inr hnm.symm))
    · exact (h.passed ht).imp_left fun hm => mem_enqueue.2 (.inl hm)

theorem Current.propagate (h : f.Current c p) (hinitial : initial.Sound) {pending : List Name}
    (hok : f.propagate initial p pending = .ok q) : f.Current c q := by
  induction pending generalizing p with
  | nil =>
    obtain rfl := Except.ok.inj hok
    exact h
  | cons n rest ih =>
    obtain ⟨p₁, hrefresh, hrest⟩ := ok_of_propagate hok
    rcases ok_of_refresh hrefresh with rfl | ⟨s, hentry, rfl⟩
    · exact ih h hrest
    · refine ih (h.set ?_ n) hrest
      have hexits : ∀ m e, p.exits.get? m = some e → e.Sound := fun _ _ he => h.exits he
      rcases entryRegions_spec (f := f) Site.closed_true hinitial hexits n with
        ⟨-, hnone⟩ | ⟨-, t, hsome, ht, -⟩
      · rw [hnone] at hentry
        cases hentry
      · rw [hsome] at hentry
        obtain rfl := Option.some.inj (Except.ok.inj hentry)
        exact ht

/-- A turn of the loop sets the exit of the block that it takes. -/
theorem Current.step (h : f.Current c p) (hinitial : initial.Sound) (hstep : f.Step c initial p q) :
    f.Current c q := by
  obtain ⟨n, -, hok⟩ := hstep
  rw [evaluate] at hok
  split at hok
  · rename_i b i s hb hi hs
    obtain ⟨i', hat⟩ := exists_at hb
    obtain rfl := Option.some.inj (hi.symm.trans hat.blockIndex?)
    obtain ⟨r, hr, hok⟩ := ok_of_bind hok
    have hr := ok_of_orUntracked hr
    refine Current.propagate ?_ hinitial hok
    refine ⟨h.entries, ?_, ?_⟩
    · intro m e he
      rw [Table.get?_insert] at he
      split at he
      · obtain ⟨r', hr', hsound⟩ :=
          passBlock_sound (f := f) (c := c) (h.entries hs) false p.memory i b
        obtain rfl := Except.ok.inj (hr.symm.trans hr')
        rw [← Option.some.inj he]
        exact hsound
      · exact h.exits he
    · intro m t ht
      by_cases hnm : n = m
      · subst hnm
        obtain rfl := Option.some.inj (hs.symm.trans ht)
        exact .inr ⟨i, b, p.memory, r, hat, hr, Table.get?_insert_self _ _ _⟩
      · rw [Table.get?_insert, if_neg hnm]
        refine (h.passed ht).imp_left ?_
        intro hm
        exact (List.mem_erase_of_ne (Ne.symm hnm)).2 hm
  · cases hok

theorem Current.run (h : f.Current c p) (hinitial : initial.Sound) (hrun : f.Run c initial p q) :
    f.Current c q := by
  induction hrun with
  | refl => exact h
  | tail _ hstep ih => exact ih.step hinitial hstep

theorem current_start (hinitial : initial.Sound) (memory : σ) :
    f.Current c (f.startProgress initial memory) := by
  have hentry : ∀ {n s}, (f.startProgress initial memory).entries.get? n = some s →
      n = f.entry ∧ s = initial := by
    intro n s hs
    rw [startProgress, Table.get?_insert] at hs
    split at hs
    · rename_i hn
      exact ⟨hn.symm, (Option.some.inj hs).symm⟩
    · cases hs
  refine ⟨?_, ?_, ?_⟩
  · intro n s hs
    rw [(hentry hs).2]
    exact hinitial
  · intro n e he
    cases he
  · intro n s hs
    exact .inl (by simp [startProgress, (hentry hs).1])

/-- When an analysis has come to its end, the exit of every block with an entry is
    what a pass over it gives from there. -/
theorem exit_of_solve {memory memory' : σ} {bound : Int} {a : Analysis} {n : Name}
    (h : f.solve c memory bound = .ok (a, memory')) (hs : a.entries.get? n = some s) :
    s.Sound ∧ ∃ i b m r, f.At n i b ∧ f.passBlock c false m s i b = .ok r ∧
      a.exits.get? n = some r.regions := by
  obtain ⟨initial, p, hinitial, hrun, hempty, hentries, hexits, -⟩ := solve_ok h
  obtain ⟨initial', hinitial', hsound, -⟩ := entry_spec f
  obtain rfl := Except.ok.inj (hinitial.symm.trans hinitial')
  have hcurrent := (current_start (f := f) (c := c) (hsound _) memory).run (hsound _) hrun
  rw [hentries] at hs
  refine ⟨hcurrent.entries hs, ?_⟩
  rw [hexits]
  rcases hcurrent.passed hs with hqueued | hpassed
  · rw [hempty] at hqueued
    cases hqueued
  · exact hpassed

end Func

/-- Queries between changes of states are answered without a trace: a run without
    them gives the same answers to the changes, ends with the same names, weights,
    records and representatives, and no later step can tell. Running over a block
    ends alike whether its accesses are watched for or not. So the pass that lists
    the accesses of an analysis goes through the states that the exits were taken
    from. -/
theorem queries_invisible :
    (∀ store : Store, (∀ n, (store n).Built fun _ => True) → ∀ steps later : List Step,
      (store.run steps).1.filter (fun e => e.1.changes) =
        (store.run (steps.filter Step.changes)).1 ∧
      (∀ n, Regions.Alike ((store.run steps).2 n) ((store.run (steps.filter Step.changes)).2 n)) ∧
      ((store.run steps).2.run later).1 =
        ((store.run (steps.filter Step.changes)).2.run later).1) ∧
    (∀ (σ : Type) (f : Func) (c : Classifier σ) (memory : σ) (s : Regions) (index : Int)
      (b : Block), (s.Built fun _ => True) →
      ∃ quiet watched, f.passBlock c false memory s index b = .ok quiet ∧
        f.passBlock c true memory s index b = .ok watched ∧ watched.memory = quiet.memory ∧
        Regions.Alike quiet.regions watched.regions) ∧
    (∀ (σ : Type) (f : Func) (c : Classifier σ) (memory memory' : σ) (bound : Int) (a : Analysis),
      f.solve c memory bound = .ok (a, memory') → ∀ n s, a.entries.get? n = some s →
      ∃ i b m quiet, f.At n i b ∧ f.passBlock c false m s i b = .ok quiet ∧
        a.exits.get? n = some quiet.regions ∧
        ∀ m', m' = m ∨ c.Steady → ∃ watched, f.passBlock c true m' s i b = .ok watched ∧
          Regions.Alike quiet.regions watched.regions) := by
  refine ⟨?_, ?_, ?_⟩
  · intro store hbuilt steps later
    have hkin : store.Kin store :=
      fun n => Regions.Kin.refl ((hbuilt n).wellFormed Site.closed_true).partition
    obtain ⟨hanswers, hend⟩ := Store.run_filter hkin steps
    exact ⟨hanswers, fun n => (hend n).alike, Store.run_congr hend later⟩
  · intro σ f c memory s index b hbuilt
    have hm : memory = memory ∨ c.Steady := .inl rfl
    obtain ⟨quiet, watched, hquiet, hwatched, hmemory, halike⟩ := Func.passBlock_alike (f := f)
      (hbuilt.wellFormed Site.closed_true) (Regions.Alike.refl s) false true hm index b
    exact ⟨quiet, watched, hquiet, hwatched, hmemory rfl, halike⟩
  · intro σ f c memory memory' bound a hsolve n s hs
    obtain ⟨hsound, i, b, m, quiet, hat, hquiet, hexit⟩ := Func.exit_of_solve hsolve hs
    refine ⟨i, b, m, quiet, hat, hquiet, hexit, ?_⟩
    intro m' hm
    obtain ⟨quiet', watched, hquiet', hwatched, -, halike⟩ := Func.passBlock_alike (f := f) hsound
      (Regions.Alike.refl s) false true hm i b
    obtain rfl := Except.ok.inj (hquiet.symm.trans hquiet')
    exact ⟨watched, hwatched, halike⟩

/-- Four names are united in pairs and then together, and sent, with queries in
    between. -/
def chatter : List Step :=
  [.change "s" (.track "a"), .change "s" (.track "b"), .change "s" (.track "c"),
   .change "s" (.track "d"), .change "t" (.track "d"), .ask "s" .classes,
   .change "s" (.union "a" ["b"]), .change "s" (.union "c" ["d"]), .change "s" (.union "a" ["c"]),
   .ask "s" (.find "d"), .compare "s" "t", .change "s" (.mark "a" Regions.sending),
   .ask "s" (.sitesFor "b"), .ask "t" (.isTransferred "d")]

/-- No state of the store tracks a name. -/
def blank : Store := fun _ => Regions.empty

/-- The queries leave a shorter path and nothing else. In the loop that sends its
    parameter the watched pass ends where the exit was taken. -/
theorem chatter_leaves_no_trace :
    ((blank.run chatter).2 "s").partition.parents.get? "d" = some "a" ∧
    ((blank.run (chatter.filter Step.changes)).2 "s").partition.parents.get? "d" = some "c" ∧
    (blank.run chatter).1.filter (fun e => e.1.changes) =
      (blank.run (chatter.filter Step.changes)).1 ∧
    Regions.Alike ((blank.run chatter).2 "s") ((blank.run (chatter.filter Step.changes)).2 "s") ∧
    ∃ a s i b quiet watched, Func.sendingLoop.solve Classifier.asWritten () 40 = .ok (a, ()) ∧
      a.entries.get? "loop" = some s ∧ Func.sendingLoop.At "loop" i b ∧
      a.exits.get? "loop" = some quiet ∧
      Func.sendingLoop.passBlock Classifier.asWritten true () s i b = .ok watched ∧
      Regions.Alike quiet watched.regions := by
  obtain ⟨hruns, -, hsolved⟩ := queries_invisible
  obtain ⟨hanswers, halike, -⟩ := hruns blank (fun _ => .empty) chatter []
  refine ⟨by decide +kernel, by decide +kernel, hanswers, halike "s", ?_⟩
  obtain ⟨⟨a, _⟩, ha⟩ := Func.sendingLoop_solved
  have hentry : ((Func.sendingLoop.solve Classifier.asWritten () 40).map fun r =>
      (r.1.entries.get? "loop").isSome) = .ok true := by decide +kernel
  rw [ha] at hentry
  obtain ⟨s, hs⟩ := Option.isSome_iff_exists.1 (Except.ok.inj hentry)
  obtain ⟨i, b, m, quiet, hat, -, hexit, hwatch⟩ := hsolved _ _ _ _ _ _ a ha "loop" s hs
  obtain ⟨watched, hwatched, hend⟩ := hwatch () (.inl rfl)
  exact ⟨a, s, i, b, quiet.regions, watched, ha, hs, hat, hexit, hwatched, hend⟩

end Sendability
