/-
  The worklist loop as a transition system.

  Evaluating a block has parts: the block is taken off the queue and its exit
  set, and then the entry of each successor is looked at in turn. `Func.Move` is
  the relation between the configurations on the way, a list of successors that
  are still to be looked at and the progress so far. `evaluate_spec` says that
  evaluating any queued block succeeds and is a sequence of moves, so a property
  of all runs is a property that moves keep, whatever block is taken next.

  `Func.Invariant` is such a property. Its fields relate entries and exits
  through views:

    * an exit is below what its block makes of the entry, and equal to it when
      the block is not queued (`exits`, `settled`);
    * an entry is below the join of what flows in (`below`), and above it unless
      the block is still to be looked at (`above`);
    * an entry is below every family of views that solves the inequations
      (`least`).

  That entries only grow follows from `below`.
-/

import Sendability.Analysis.Fixpoint
import Sendability.Proofs.FlowGraph
import Sendability.Proofs.Passage

namespace Sendability

open Relation (ReflTransGen)

theorem ok_of_orUntracked {α : Type} {x : Except Untracked α} {r : α}
    (h : orUntracked x = .ok r) : x = .ok r := by
  cases x with
  | ok a => exact congrArg Except.ok (Except.ok.inj h)
  | error e => cases h

namespace Func

variable {σ : Type} {f : Func} {c : Classifier σ} {kinds : Op → Crossing} {P : Site → Prop}
  {initial : Regions} {n : Name} {i : Nat} {b : Block}

-- ============================================================================
-- What flows along edges
-- ============================================================================

/-- What the block `n` makes of a view. -/
noncomputable def flow (f : Func) (kinds : Op → Crossing) (n : Name) (A : View) : View :=
  match f.blocks.get? n, f.blockIndex? n with
  | some b, some i => View.passBlock kinds i b A
  | _, _ => A

/-- The flow out of a block is what going through it makes of a view. -/
theorem At.flow (h : f.At n i b) (A : View) : f.flow kinds n A = View.passBlock kinds i b A := by
  rw [Func.flow, h.get?, h.blockIndex?]

theorem flow_mono {A B : View} (h : A ≤ B) (hB : B.Lawful) (n : Name) :
    f.flow kinds n A ≤ f.flow kinds n B := by
  unfold Func.flow
  split
  · exact View.passBlock_mono h hB _
  · exact h

/-- Something flows into a block: from the start, or from an exit that is set. -/
def Inflow (f : Func) (exits : Table Name Regions) (n : Name) : Prop :=
  n = f.entry ∨ ∃ p e, f.Edge p n ∧ exits.get? p = some e

/-- A view is above everything that flows into a block. -/
structure Bounds (f : Func) (initial : Regions) (exits : Table Name Regions) (n : Name)
    (U : View) : Prop where
  start : n = f.entry → initial.view ≤ U
  edge : ∀ p e, f.Edge p n → exits.get? p = some e → e.view ≤ U

/-- What comes into a block are the exits before it, and the start at the first. -/
theorem mem_incoming (f : Func) (initial : Regions) (exits : Table Name Regions) (n : Name)
    (x : Regions) : x ∈ f.incoming initial exits n ↔
      (n = f.entry ∧ x = initial) ∨ ∃ p, f.Edge p n ∧ exits.get? p = some x := by
  have hstart : x ∈ (if n = f.entry then [initial] else []) ↔ n = f.entry ∧ x = initial := by
    split
    · rename_i h
      simp [h]
    · rename_i h
      simp [h]
  rw [incoming, List.mem_append, hstart, List.mem_filterMap]
  simp only [mem_predecessors]

/-- A view is above what flows in when it is above all the incoming states. -/
theorem bounds_iff (f : Func) (initial : Regions) (exits : Table Name Regions) (n : Name)
    (U : View) : f.Bounds initial exits n U ↔
      ∀ x ∈ f.incoming initial exits n, x.view ≤ U := by
  refine ⟨?_, ?_⟩
  · intro h x hx
    rcases (mem_incoming f initial exits n x).1 hx with ⟨hn, rfl⟩ | ⟨p, hp, he⟩
    · exact h.start hn
    · exact h.edge p x hp he
  · intro h
    refine ⟨?_, ?_⟩
    · exact fun hn => h initial ((mem_incoming f initial exits n initial).2 (.inl ⟨hn, rfl⟩))
    · exact fun p e hp he => h e ((mem_incoming f initial exits n e).2 (.inr ⟨p, hp, he⟩))

/-- The entry of a block is the join of what flows in; there is none when nothing
    does. -/
theorem entryRegions_spec (hP : Site.Closed P) (hinitial : initial.WellFormed P)
    {exits : Table Name Regions} (hexits : ∀ p e, exits.get? p = some e → e.WellFormed P)
    (n : Name) :
    (¬ f.Inflow exits n ∧ f.entryRegions initial exits n = .ok none) ∨
    (f.Inflow exits n ∧ ∃ s, f.entryRegions initial exits n = .ok (some s) ∧ s.WellFormed P ∧
      f.Bounds initial exits n s.view ∧
      ∀ U : View, U.Lawful → f.Bounds initial exits n U → s.view ≤ U) := by
  have hinflow : f.Inflow exits n ↔ ∃ x, x ∈ f.incoming initial exits n := by
    simp only [mem_incoming]
    refine ⟨?_, ?_⟩
    · rintro (hn | ⟨p, e, hp, he⟩)
      · exact ⟨initial, .inl ⟨hn, rfl⟩⟩
      · exact ⟨e, .inr ⟨p, hp, he⟩⟩
    · rintro ⟨x, ⟨hn, -⟩ | ⟨p, hp, he⟩⟩
      · exact .inl hn
      · exact .inr ⟨p, x, hp, he⟩
  have hwf : ∀ x ∈ f.incoming initial exits n, x.WellFormed P := by
    intro x hx
    rcases (mem_incoming f initial exits n x).1 hx with ⟨-, rfl⟩ | ⟨p, -, he⟩
    · exact hinitial
    · exact hexits p x he
  have hbounds := bounds_iff f initial exits n
  cases hin : f.incoming initial exits n with
  | nil =>
    refine .inl ⟨?_, by rw [entryRegions, hin]⟩
    rw [hinflow, hin]
    simp
  | cons s rest =>
    rw [hin] at hwf hbounds
    obtain ⟨r, hr, hrwf, hjoin⟩ := Regions.joinAll_spec hP (hwf s (by simp))
      fun t ht => hwf t (List.mem_cons_of_mem _ ht)
    refine .inr ⟨hinflow.2 ⟨s, by rw [hin]; simp⟩, r, ?_, hrwf, ?_, ?_⟩
    · rw [entryRegions, hin]
      simp only [hr, bind, Except.bind, pure, Except.pure]
    · exact (hbounds r.view).2 fun x hx => hjoin.upper x.view ⟨x, hx, rfl⟩
    · intro U hU hUb
      apply hjoin.least U hU
      rintro A ⟨x, hx, rfl⟩
      exact (hbounds U).1 hUb x hx

-- ============================================================================
-- Moves
-- ============================================================================

/-- What the loop relies on: the sites of calls satisfy `P`, the answers of the
    classifier are `kinds`, and reached blocks exist. -/
structure Regular (f : Func) (c : Classifier σ) (kinds : Op → Crossing) (P : Site → Prop)
    (initial : Regions) : Prop where
  closed : Site.Closed P
  coherent : Site.Coherent P
  answers : c.Answers f kinds
  makes : ∀ {n i b}, f.At n i b → f.BlockMakes P kinds i b
  initial : initial.WellFormed P
  reached : ∀ {n}, f.Reaches n → ∃ i b, f.At n i b

/-- The successors of a reached block exist. -/
theorem Regular.targets (h : f.Regular c kinds P initial) (hreach : f.Reaches n)
    (hat : f.At n i b) : ∀ t ∈ b.successors, t ∈ f.blocks.keys := by
  intro t ht
  obtain ⟨j, b', hat'⟩ := h.reached (hreach.tail (hat.edge_iff.2 ht))
  exact List.mem_of_getElem? hat'.keys

/-- One part of an evaluation. The first component lists the successors whose
    entries are still to be looked at. -/
inductive Move (f : Func) (kinds : Op → Crossing) (P : Site → Prop) (initial : Regions) :
    List Name × Progress σ → List Name × Progress σ → Prop
  /-- A block is taken off the queue and its exit set. -/
  | take {p : Progress σ} {n : Name} {i : Nat} {b : Block} {s e : Regions} {memory : σ} :
      n ∈ p.queue → f.At n i b → p.entries.get? n = some s → e.WellFormed P →
      e.view = View.passBlock kinds i b s.view →
      Move f kinds P initial ([], p)
        (b.successors, ⟨p.entries, p.exits.insert n e, p.queue.erase n, p.evaluations + 1, memory⟩)
  /-- Nothing flows into a successor. -/
  | idle {p : Progress σ} {n : Name} {rest : List Name} :
      ¬ f.Inflow p.exits n → Move f kinds P initial (n :: rest, p) (rest, p)
  /-- The entry of a successor is the join of what flows in. -/
  | keep {p : Progress σ} {n : Name} {rest : List Name} {s : Regions} :
      p.entries.get? n = some s → f.Bounds initial p.exits n s.view →
      Move f kinds P initial (n :: rest, p) (rest, p)
  /-- The entry of a successor is set anew and the successor queued. -/
  | set {p : Progress σ} {n : Name} {rest : List Name} {s : Regions} :
      s.WellFormed P → f.Inflow p.exits n → f.Bounds initial p.exits n s.view →
      (∀ U : View, U.Lawful → f.Bounds initial p.exits n U → s.view ≤ U) →
      (∀ t, p.entries.get? n = some t → t.view ≠ s.view) →
      Move f kinds P initial (n :: rest, p)
        (rest, { p with entries := p.entries.insert n s, queue := enqueue p.queue n })

/-- A family of views that is above the start and above what every reached block
    makes of it, along the edges. -/
structure Solves (f : Func) (kinds : Op → Crossing) (initial : Regions) (X : Name → View) :
    Prop where
  lawful : ∀ n, f.Reaches n → (X n).Lawful
  start : initial.view ≤ X f.entry
  edge : ∀ p n, f.Reaches p → f.Edge p n → f.flow kinds p (X p) ≤ X n

structure Invariant (f : Func) (kinds : Op → Crossing) (P : Site → Prop) (initial : Regions)
    (pending : List Name) (p : Progress σ) : Prop where
  entries : ∀ {n s}, p.entries.get? n = some s → s.WellFormed P ∧ f.Reaches n
  exits : ∀ {n e}, p.exits.get? n = some e → e.WellFormed P ∧
    ∃ s, p.entries.get? n = some s ∧ e.view ≤ f.flow kinds n s.view
  queued : ∀ {n}, n ∈ p.queue → ∃ s, p.entries.get? n = some s
  nodup : p.queue.Nodup
  started : ∃ s, p.entries.get? f.entry = some s
  settled : ∀ {n s}, p.entries.get? n = some s → n ∉ p.queue →
    ∃ e, p.exits.get? n = some e ∧ e.view = f.flow kinds n s.view
  below : ∀ {n s}, p.entries.get? n = some s →
    ∀ U : View, U.Lawful → f.Bounds initial p.exits n U → s.view ≤ U
  above : ∀ {n s}, p.entries.get? n = some s → n ∉ pending → f.Bounds initial p.exits n s.view
  onward : ∀ {n e t}, p.exits.get? n = some e → f.Edge n t → t ∉ pending →
    ∃ s, p.entries.get? t = some s
  least : ∀ {X : Name → View}, f.Solves kinds initial X →
    ∀ {n s}, p.entries.get? n = some s → s.view ≤ X n

theorem mem_enqueue {queue : List Name} {m : Name} :
    m ∈ enqueue queue n ↔ m ∈ queue ∨ m = n := by
  unfold enqueue
  split
  · rename_i h
    refine ⟨.inl, ?_⟩
    rintro (hm | rfl)
    · exact hm
    · exact h
  · simp

theorem nodup_enqueue {queue : List Name} (h : queue.Nodup) (n : Name) :
    (enqueue queue n).Nodup := by
  unfold enqueue
  split
  · exact h
  · rename_i hn
    rw [List.nodup_append]
    refine ⟨h, List.nodup_singleton n, ?_⟩
    rintro a ha b hb rfl
    exact hn (List.mem_singleton.1 hb ▸ ha)

-- ============================================================================
-- Every move keeps the invariant
-- ============================================================================

section Moves

variable {p : Progress σ} {rest : List Name} {s : Regions}

/-- Evaluating a block sets its exit and leaves its successors pending. -/
theorem Invariant.take (h : Invariant f kinds P initial [] p) (hat : f.At n i b)
    (hs : p.entries.get? n = some s) {e : Regions} (he : e.WellFormed P)
    (hview : e.view = View.passBlock kinds i b s.view) (memory : σ) :
    Invariant f kinds P initial b.successors
      ⟨p.entries, p.exits.insert n e, p.queue.erase n, p.evaluations + 1, memory⟩ := by
  rw [← hat.flow] at hview
  have hget : ∀ m, (p.exits.insert n e).get? m = if n = m then some e else p.exits.get? m :=
    fun m => Table.get?_insert _ _ _ _
  -- an exit never shrinks, so what was above the old exits has to be above less
  have hback : ∀ m U, f.Bounds initial (p.exits.insert n e) m U → f.Bounds initial p.exits m U := by
    intro m U hU
    refine ⟨hU.start, ?_⟩
    intro q x hq hx
    by_cases hqn : n = q
    · subst hqn
      obtain ⟨-, t, ht, hle⟩ := h.exits hx
      obtain rfl := Option.some.inj (hs.symm.trans ht)
      have hnew : e.view ≤ U := hU.edge n e hq (by rw [hget, if_pos rfl])
      exact (hle.trans (le_of_eq hview.symm)).trans hnew
    · exact hU.edge q x hq (by rw [hget, if_neg hqn]; exact hx)
  refine ⟨h.entries, ?_, ?_, h.nodup.erase n, h.started, ?_, ?_, ?_, ?_, h.least⟩
  · intro m x hx
    rw [hget] at hx
    split at hx
    · rename_i hnm
      subst hnm
      obtain rfl := Option.some.inj hx
      exact ⟨he, s, hs, le_of_eq hview⟩
    · exact h.exits hx
  · intro m hm
    exact h.queued (List.mem_of_mem_erase hm)
  · intro m x hx hm
    by_cases hnm : n = m
    · subst hnm
      obtain rfl := Option.some.inj (hs.symm.trans hx)
      exact ⟨e, by rw [hget, if_pos rfl], hview⟩
    · have hm' : m ∉ p.queue := fun hq => hm ((List.mem_erase_of_ne (Ne.symm hnm)).2 hq)
      obtain ⟨y, hy, hyview⟩ := h.settled hx hm'
      exact ⟨y, by rw [hget, if_neg hnm]; exact hy, hyview⟩
  · intro m x hx U hU hb
    exact h.below hx U hU (hback m U hb)
  · intro m x hx hm
    obtain ⟨hstart, hedge⟩ := h.above hx (by simp)
    refine ⟨hstart, ?_⟩
    intro q y hq hy
    rw [hget] at hy
    split at hy
    · rename_i hnq
      subst hnq
      exact absurd (hat.edge_iff.1 hq) hm
    · exact hedge q y hq hy
  · intro m x t hx hmt ht
    rw [hget] at hx
    split at hx
    · rename_i hnm
      subst hnm
      exact absurd (hat.edge_iff.1 hmt) ht
    · exact h.onward hx hmt (by simp)

/-- A block into which nothing flows yet is settled. -/
theorem Invariant.idle (h : Invariant f kinds P initial (n :: rest) p)
    (hin : ¬ f.Inflow p.exits n) : Invariant f kinds P initial rest p := by
  refine ⟨h.entries, h.exits, h.queued, h.nodup, h.started, h.settled, h.below, ?_, ?_, h.least⟩
  · intro m x hx hm
    by_cases hmn : m = n
    · subst hmn
      exact ⟨fun hstart => absurd (.inl hstart) hin,
        fun q e hq he => absurd (.inr ⟨q, e, hq, he⟩) hin⟩
    · exact h.above hx (by simp [hmn, hm])
  · intro m e t he hmt ht
    have htn : t ≠ n := by
      rintro rfl
      exact hin (.inr ⟨m, e, hmt, he⟩)
    exact h.onward he hmt (by simp [htn, ht])

/-- A block whose entry bounds what flows in is settled. -/
theorem Invariant.keep (h : Invariant f kinds P initial (n :: rest) p)
    (hs : p.entries.get? n = some s) (hb : f.Bounds initial p.exits n s.view) :
    Invariant f kinds P initial rest p := by
  refine ⟨h.entries, h.exits, h.queued, h.nodup, h.started, h.settled, h.below, ?_, ?_, h.least⟩
  · intro m x hx hm
    by_cases hmn : m = n
    · subst hmn
      obtain rfl := Option.some.inj (hs.symm.trans hx)
      exact hb
    · exact h.above hx (by simp [hmn, hm])
  · intro m e t he hmt ht
    by_cases htn : t = n
    · exact ⟨s, htn ▸ hs⟩
    · exact h.onward he hmt (by simp [htn, ht])

theorem Invariant.reaches_of_inflow {pending : List Name} (h : Invariant f kinds P initial pending p)
    (hin : f.Inflow p.exits n) : f.Reaches n := by
  rcases hin with rfl | ⟨q, e, hq, he⟩
  · exact ReflTransGen.refl
  · obtain ⟨-, t, ht, -⟩ := h.exits he
    exact ReflTransGen.tail (h.entries ht).2 hq

/-- A block whose entry is set to the join of what flows in is settled and queued. -/
theorem Invariant.set (h : Invariant f kinds P initial (n :: rest) p) (hs : s.WellFormed P)
    (hin : f.Inflow p.exits n) (hb : f.Bounds initial p.exits n s.view)
    (hleast : ∀ U : View, U.Lawful → f.Bounds initial p.exits n U → s.view ≤ U) :
    Invariant f kinds P initial rest
      { p with entries := p.entries.insert n s, queue := enqueue p.queue n } := by
  have hget : ∀ m, (p.entries.insert n s).get? m = if n = m then some s else p.entries.get? m :=
    fun m => Table.get?_insert _ _ _ _
  have hreach := h.reaches_of_inflow hin
  have hlaw := Regions.lawful_view hs
  -- every old entry is still there, and none has shrunk
  have hgrow : ∀ m x, p.entries.get? m = some x →
      ∃ y, (p.entries.insert n s).get? m = some y ∧ x.view ≤ y.view ∧ y.view.Lawful := by
    intro m x hx
    by_cases hnm : n = m
    · subst hnm
      exact ⟨s, by rw [hget, if_pos rfl], h.below hx s.view hlaw hb, hlaw⟩
    · exact ⟨x, by rw [hget, if_neg hnm]; exact hx, le_refl _,
        Regions.lawful_view (h.entries hx).1⟩
  refine ⟨?_, ?_, ?_, nodup_enqueue h.nodup n, ?_, ?_, ?_, ?_, ?_, ?_⟩
  · intro m x hx
    rw [hget] at hx
    split at hx
    · rename_i hnm
      subst hnm
      obtain rfl := Option.some.inj hx
      exact ⟨hs, hreach⟩
    · exact h.entries hx
  · intro m e he
    obtain ⟨hwf, x, hx, hle⟩ := h.exits he
    obtain ⟨y, hy, hxy, hylaw⟩ := hgrow m x hx
    exact ⟨hwf, y, hy, hle.trans (flow_mono hxy hylaw m)⟩
  · intro m hm
    rcases mem_enqueue.1 hm with hm | rfl
    · obtain ⟨x, hx⟩ := h.queued hm
      obtain ⟨y, hy, -⟩ := hgrow m x hx
      exact ⟨y, hy⟩
    · exact ⟨s, by rw [hget, if_pos rfl]⟩
  · obtain ⟨x, hx⟩ := h.started
    obtain ⟨y, hy, -⟩ := hgrow f.entry x hx
    exact ⟨y, hy⟩
  · intro m x hx hm
    have hmn : ¬ n = m := fun heq => hm (mem_enqueue.2 (.inr heq.symm))
    rw [hget, if_neg hmn] at hx
    exact h.settled hx fun hq => hm (mem_enqueue.2 (.inl hq))
  · intro m x hx U hU hUb
    rw [hget] at hx
    split at hx
    · rename_i hnm
      subst hnm
      obtain rfl := Option.some.inj hx
      exact hleast U hU hUb
    · exact h.below hx U hU hUb
  · intro m x hx hm
    rw [hget] at hx
    split at hx
    · rename_i hnm
      subst hnm
      obtain rfl := Option.some.inj hx
      exact hb
    · rename_i hnm
      exact h.above hx (by simp [Ne.symm hnm, hm])
  · intro m e t he hmt ht
    by_cases htn : n = t
    · exact ⟨s, by rw [hget, if_pos htn]⟩
    · obtain ⟨x, hx⟩ := h.onward he hmt (by simp [Ne.symm htn, ht])
      exact ⟨x, by rw [hget, if_neg htn]; exact hx⟩
  · intro X hX m x hx
    rw [hget] at hx
    split at hx
    · rename_i hnm
      subst hnm
      obtain rfl := Option.some.inj hx
      -- what flows in comes from entries that are below the family already
      apply hleast (X n) (hX.lawful n hreach)
      refine ⟨?_, ?_⟩
      · rintro rfl
        exact hX.start
      · intro q e hq he
        obtain ⟨-, y, hy, hle⟩ := h.exits he
        have hqreach := (h.entries hy).2
        have hflow : f.flow kinds q y.view ≤ f.flow kinds q (X q) :=
          flow_mono (h.least hX hy) (hX.lawful q hqreach) q
        exact (hle.trans hflow).trans (hX.edge q n hqreach hq)
    · exact h.least hX hx

/-- Every move keeps the invariant. -/
theorem Invariant.move {pending pending' : List Name} {p' : Progress σ}
    (h : Invariant f kinds P initial pending p)
    (hm : Move f kinds P initial (pending, p) (pending', p')) :
    Invariant f kinds P initial pending' p' := by
  cases hm with
  | take _ hat hs he hview => exact h.take hat hs he hview _
  | idle hin => exact h.idle hin
  | keep hs hb => exact h.keep hs hb
  | set hs hin hb hleast _ => exact h.set hs hin hb hleast

theorem Invariant.moves {pending pending' : List Name} {p' : Progress σ}
    (h : Invariant f kinds P initial pending p)
    (hm : ReflTransGen (Move f kinds P initial) (pending, p) (pending', p')) :
    Invariant f kinds P initial pending' p' := by
  -- the invariant of a configuration, so that the induction is over pairs
  have hpair : ∀ x : List Name × Progress σ,
      ReflTransGen (Move f kinds P initial) (pending, p) x → Invariant f kinds P initial x.1 x.2 := by
    intro x hx
    induction hx with
    | refl => exact h
    | tail _ hstep ih => exact ih.move hstep
  exact hpair (pending', p') hm

theorem invariant_start (hinitial : initial.WellFormed P) (memory : σ) :
    Invariant f kinds P initial [] (f.startProgress initial memory) := by
  have hget : ∀ m, (Table.empty.insert f.entry initial).get? m =
      if f.entry = m then some initial else none :=
    fun m => Table.get?_insert _ _ _ _
  have honly : ∀ {m x}, (Table.empty.insert f.entry initial).get? m = some x →
      m = f.entry ∧ x = initial := by
    intro m x hx
    rw [hget] at hx
    split at hx
    · rename_i hm
      exact ⟨hm.symm, (Option.some.inj hx).symm⟩
    · cases hx
  refine ⟨?_, ?_, ?_, List.nodup_singleton _, ⟨initial, by rw [startProgress, hget, if_pos rfl]⟩,
    ?_, ?_, ?_, ?_, ?_⟩
  · intro m x hx
    obtain ⟨rfl, rfl⟩ := honly hx
    exact ⟨hinitial, ReflTransGen.refl⟩
  · intro m e he
    cases he
  · intro m hm
    obtain rfl := List.mem_singleton.1 hm
    exact ⟨initial, by rw [startProgress, hget, if_pos rfl]⟩
  · intro m x hx hm
    obtain ⟨rfl, -⟩ := honly hx
    exact absurd (List.mem_singleton.2 rfl) hm
  · intro m x hx U _ hU
    obtain ⟨rfl, rfl⟩ := honly hx
    exact hU.start rfl
  · intro m x hx _
    obtain ⟨rfl, rfl⟩ := honly hx
    refine ⟨fun _ => le_refl _, ?_⟩
    intro q e _ he
    cases he
  · intro m e t he
    cases he
  · intro X hX m x hx
    obtain ⟨rfl, rfl⟩ := honly hx
    exact hX.start

end Moves

-- ============================================================================
-- Evaluations are sequences of moves
-- ============================================================================

section Evaluations

variable {p : Progress σ}

/-- Looking at a successor whose entry has to be `s`. -/
theorem unchanged_spec (hcoh : Site.Coherent P) {entries : Table Name Regions} {s : Regions}
    (hs : s.WellFormed P) (hentries : ∀ t, entries.get? n = some t → t.WellFormed P) :
    (unchanged entries n s = .ok true ∧ ∃ t, entries.get? n = some t ∧ t.view = s.view) ∨
    (unchanged entries n s = .ok false ∧ ∀ t, entries.get? n = some t → t.view ≠ s.view) := by
  cases hget : entries.get? n with
  | none => exact .inr ⟨by rw [unchanged, hget], by simp⟩
  | some t =>
    obtain ⟨same, hsame, hiff⟩ := Regions.same_spec hcoh hs (hentries t hget)
    have hun : unchanged entries n s = .ok same := by
      rw [unchanged, hget]
      exact hsame
    cases same with
    | true => exact .inl ⟨hun, t, rfl, (hiff.1 rfl).symm⟩
    | false =>
      refine .inr ⟨hun, ?_⟩
      intro u hu heq
      obtain rfl := Option.some.inj hu
      exact absurd (hiff.2 heq.symm) (by simp)

theorem refresh_of_none (h : f.entryRegions initial p.exits n = .ok none) :
    f.refresh initial p n = .ok p := by
  rw [refresh, h]
  rfl

theorem refresh_of_unchanged {s : Regions} (h : f.entryRegions initial p.exits n = .ok (some s))
    (hun : unchanged p.entries n s = .ok true) : f.refresh initial p n = .ok p := by
  simp only [refresh, h, hun, bind, Except.bind, if_true]
  rfl

theorem refresh_of_changed {s : Regions} (h : f.entryRegions initial p.exits n = .ok (some s))
    (hun : unchanged p.entries n s = .ok false) : f.refresh initial p n =
      .ok { p with entries := p.entries.insert n s, queue := enqueue p.queue n } := by
  simp only [refresh, h, hun, bind, Except.bind]
  rfl

/-- Looking at a successor leaves everything as it is, or sets its entry to what
    flows in and queues it. -/
theorem ok_of_refresh {q : Progress σ} (h : f.refresh initial p n = .ok q) :
    q = p ∨ ∃ s, f.entryRegions initial p.exits n = .ok (some s) ∧
      q = { p with entries := p.entries.insert n s, queue := enqueue p.queue n } := by
  obtain ⟨entry, hentry, h⟩ := ok_of_bind h
  cases entry with
  | none => exact .inl (Except.ok.inj h).symm
  | some s =>
    obtain ⟨same, -, h⟩ := ok_of_bind h
    cases same with
    | true => exact .inl (Except.ok.inj h).symm
    | false => exact .inr ⟨s, hentry, (Except.ok.inj h).symm⟩

/-- A successor that is a block is looked at before the others. -/
theorem propagate_cons {q : Progress σ} (hn : n ∈ f.blocks.keys)
    (h : f.refresh initial p n = .ok q) (rest : List Name) :
    f.propagate initial p (n :: rest) = f.propagate initial q rest := by
  rw [propagate, if_pos ((Table.contains_iff _ _).2 hn), h]
  rfl

/-- Passing on refreshes one block after the other. -/
theorem ok_of_propagate {q : Progress σ} {rest : List Name}
    (h : f.propagate initial p (n :: rest) = .ok q) :
    ∃ p₁, f.refresh initial p n = .ok p₁ ∧ f.propagate initial p₁ rest = .ok q := by
  rw [propagate] at h
  split at h
  · obtain ⟨p₁, hp₁, h⟩ := ok_of_bind h
    exact ⟨p₁, ok_of_orUntracked hp₁, h⟩
  · cases h

/-- Passing on to blocks that are there succeeds, and is a sequence of moves; the
    induction is on them. -/
theorem propagate_spec (hreg : f.Regular c kinds P initial) {pending : List Name}
    (hpending : ∀ t ∈ pending, t ∈ f.blocks.keys) (hinv : Invariant f kinds P initial pending p) :
    ∃ p', f.propagate initial p pending = .ok p' ∧ p'.evaluations = p.evaluations ∧
      ReflTransGen (Move f kinds P initial) (pending, p) ([], p') := by
  induction pending generalizing p with
  | nil => exact ⟨p, rfl, rfl, ReflTransGen.refl⟩
  | cons n rest ih =>
    have hexits : ∀ q e, p.exits.get? q = some e → e.WellFormed P := fun q e he => (hinv.exits he).1
    -- one move, then the rest
    have hgo : ∀ p₁ : Progress σ, f.refresh initial p n = .ok p₁ →
        p₁.evaluations = p.evaluations → Move f kinds P initial (n :: rest, p) (rest, p₁) →
        ∃ p', f.propagate initial p (n :: rest) = .ok p' ∧ p'.evaluations = p.evaluations ∧
          ReflTransGen (Move f kinds P initial) (n :: rest, p) ([], p') := by
      intro p₁ hrefresh hcount hmove
      obtain ⟨p', hok, hcount', hmoves⟩ :=
        ih (fun t ht => hpending t (List.mem_cons_of_mem _ ht)) (hinv.move hmove)
      exact ⟨p', (propagate_cons (hpending n (by simp)) hrefresh rest).trans hok,
        hcount'.trans hcount, ReflTransGen.head hmove hmoves⟩
    rcases entryRegions_spec hreg.closed hreg.initial hexits n with
      ⟨hin, hnone⟩ | ⟨hin, s, hsome, hs, hb, hleast⟩
    · exact hgo p (refresh_of_none hnone) rfl (.idle hin)
    · rcases unchanged_spec hreg.coherent hs fun t ht => (hinv.entries ht).1 with
        ⟨hun, t, ht, heq⟩ | ⟨hun, hne⟩
      · exact hgo p (refresh_of_unchanged hsome hun) rfl (.keep ht (heq ▸ hb))
      · exact hgo _ (refresh_of_changed hsome hun) rfl (.set hs hin hb hleast hne)

/-- Evaluating any queued block succeeds, counts as one evaluation, and is a
    sequence of moves. -/
theorem evaluate_spec (hreg : f.Regular c kinds P initial)
    (hinv : Invariant f kinds P initial [] p) (hn : n ∈ p.queue) :
    ∃ p', f.evaluate c initial { p with queue := p.queue.erase n } n = .ok p' ∧
      p'.evaluations = p.evaluations + 1 ∧
      ReflTransGen (Move f kinds P initial) ([], p) ([], p') := by
  obtain ⟨s, hs⟩ := hinv.queued hn
  obtain ⟨hwf, hreach⟩ := hinv.entries hs
  obtain ⟨i, b, hat⟩ := hreg.reached hreach
  obtain ⟨r, hr, hrwf, hrview, -⟩ :=
    passBlock_spec hreg.closed hwf hreg.answers false p.memory i (hreg.makes hat)
  have hmove : Move f kinds P initial ([], p) (b.successors, ⟨p.entries,
      p.exits.insert n r.regions, p.queue.erase n, p.evaluations + 1, r.memory⟩) :=
    .take hn hat hs hrwf hrview
  obtain ⟨p', hok, hcount, hmoves⟩ :=
    propagate_spec hreg (hreg.targets hreach hat) (hinv.move hmove)
  refine ⟨p', ?_, hcount, ReflTransGen.head hmove hmoves⟩
  rw [evaluate, hat.get?, hat.blockIndex?, hs]
  simp only [hr, bind, Except.bind, hok, orUntracked]

-- ============================================================================
-- Runs
-- ============================================================================

/-- One turn of the loop, with any queued block in place of the first. -/
def Step (f : Func) (c : Classifier σ) (initial : Regions) (p q : Progress σ) : Prop :=
  ∃ n ∈ p.queue, f.evaluate c initial { p with queue := p.queue.erase n } n = .ok q

/-- The loop comes from one progress to another, whatever blocks are taken. -/
def Run (f : Func) (c : Classifier σ) (initial : Regions) : Progress σ → Progress σ → Prop :=
  ReflTransGen (f.Step c initial)

/-- One evaluation is a sequence of moves. -/
theorem Step.moves (hreg : f.Regular c kinds P initial)
    (hinv : Invariant f kinds P initial [] p) {q : Progress σ} (h : f.Step c initial p q) :
    ReflTransGen (Move f kinds P initial) ([], p) ([], q) := by
  obtain ⟨n, hn, hok⟩ := h
  obtain ⟨p', hok', -, hmoves⟩ := evaluate_spec hreg hinv hn
  obtain rfl := Except.ok.inj (hok.symm.trans hok')
  exact hmoves

/-- A run keeps the invariant. -/
theorem Run.invariant (hreg : f.Regular c kinds P initial)
    (hinv : Invariant f kinds P initial [] p) {q : Progress σ} (h : f.Run c initial p q) :
    Invariant f kinds P initial [] q := by
  induction h with
  | refl => exact hinv
  | tail _ hstep ih => exact ih.moves (hstep.moves hreg ih)

/-- Draining the queue in order is one way to run the loop until it is empty. -/
theorem drain_ok {bound : Int} {fuel : Nat} {q : Progress σ}
    (h : f.drain c initial bound fuel p = .ok q) : f.Run c initial p q ∧ q.queue = [] := by
  induction fuel generalizing p with
  | zero =>
    rw [drain] at h
    split at h
    · rename_i hq
      obtain rfl := Except.ok.inj h
      exact ⟨ReflTransGen.refl, hq⟩
    · cases h
  | succ fuel ih =>
    rw [drain] at h
    split at h
    · rename_i hq
      obtain rfl := Except.ok.inj h
      exact ⟨ReflTransGen.refl, hq⟩
    · rename_i n rest hq
      simp only [bind, Except.bind] at h
      split at h
      · cases h
      · rename_i p' hp'
        obtain ⟨hrun, hempty⟩ := ih h
        refine ⟨ReflTransGen.head ⟨n, by simp [hq], ?_⟩ hrun, hempty⟩
        rw [hq, List.erase_cons_head]
        exact hp'

end Evaluations

end Func

end Sendability
