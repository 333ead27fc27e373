/-
  An analysis cannot get stuck.

  The analysis of a function that passed validation ends with a result or is
  stopped at its bound: no look-up of a block, a parent, a weight or an operand
  fails on the way. Nothing is asked of the classifier, which may answer
  differently every time; so the argument has no use for what states mean, and
  follows only that they stay well formed.

  Each function of the analysis has a lemma that says that it succeeds and what
  it keeps. `Func.Ready` is what the worklist keeps: queued blocks exist and have
  an entry, and all states are sound.
-/

import Sendability.Analysis.Checker
import Sendability.Proofs.DataFlow

namespace Sendability

/-- A state on which no look-up of a tracked name fails; which sites it has does
    not matter. -/
abbrev Regions.Sound (s : Regions) : Prop := s.WellFormed fun _ => True

namespace Func

variable {σ : Type} {f : Func} {c : Classifier σ} {s initial : Regions}

-- ============================================================================
-- Blocks
-- ============================================================================

theorem passOp_sound (hs : s.Sound) (watch : Bool) (memory : σ) (point : Point) (op : Op) :
    ∃ r, f.passOp c watch memory s point op = .ok r ∧ r.regions.Sound := by
  obtain ⟨l, t, hl, ht, -⟩ := Regions.watchedAccesses_spec hs watch point op.loc op.operands
  have hmakes : f.Makes (fun _ => True) (c.crossing memory f op).1 point op :=
    fun _ _ _ _ _ _ _ _ => trivial
  obtain ⟨u, hu, huwf, -⟩ := Regions.apply_spec Site.closed_true (ht.wellFormed hs) hmakes
  refine ⟨⟨u, l, (c.crossing memory f op).2⟩, ?_, huwf⟩
  simp only [passOp, hl, hu, bind, Except.bind, pure, Except.pure]

theorem passOps_sound (hs : s.Sound) (watch : Bool) (index i : Int) (label : Name) (memory : σ)
    (ops : List Op) :
    ∃ r, f.passOps c watch index label i memory s ops = .ok r ∧ r.regions.Sound := by
  induction ops generalizing i memory s with
  | nil => exact ⟨⟨s, [], memory⟩, rfl, hs⟩
  | cons op rest ih =>
    obtain ⟨p, hp, hpwf⟩ := passOp_sound (f := f) (c := c) hs watch memory ⟨index, i, label⟩ op
    obtain ⟨q, hq, hqwf⟩ := ih hpwf (i + 1) p.memory
    refine ⟨{ q with accesses := p.accesses ++ q.accesses }, ?_, hqwf⟩
    simp only [passOps, hp, hq, bind, Except.bind, pure, Except.pure]

/-- Running over a block succeeds, whatever the classifier answers. -/
theorem passBlock_sound (hs : s.Sound) (watch : Bool) (memory : σ) (index : Int) (b : Block) :
    ∃ r, f.passBlock c watch memory s index b = .ok r ∧ r.regions.Sound := by
  obtain ⟨p, hp, hpwf⟩ := passOps_sound (f := f) (c := c) hs watch index 0 b.name memory b.ops
  cases ht : b.terminator with
  | none =>
    refine ⟨p, ?_, hpwf⟩
    simp only [passBlock, hp, ht, bind, Except.bind, pure, Except.pure]
  | some t =>
    obtain ⟨l, u, hl, hu, -⟩ := Regions.watchedAccesses_spec hpwf watch
      ⟨index, b.ops.length, b.name⟩ t.loc t.operands
    refine ⟨{ p with regions := u, accesses := p.accesses ++ l }, ?_, hu.wellFormed hpwf⟩
    simp only [passBlock, hp, ht, Regions.passTerminator, hl, bind, Except.bind, pure, Except.pure]

-- ============================================================================
-- The worklist
-- ============================================================================

/-- Blocks with an entry exist, queued blocks have one, and no look-up in a state
    fails. -/
structure Ready (f : Func) (p : Progress σ) : Prop where
  entries : ∀ {n s}, p.entries.get? n = some s → s.Sound ∧ n ∈ f.blocks.keys
  exits : ∀ {n e}, p.exits.get? n = some e → e.Sound
  queued : ∀ {n}, n ∈ p.queue → ∃ s, p.entries.get? n = some s

theorem unchanged_sound {entries : Table Name Regions} {n : Name} (hs : s.Sound)
    (hentries : ∀ t, entries.get? n = some t → t.Sound) : ∃ same, unchanged entries n s = .ok same := by
  cases hget : entries.get? n with
  | none => exact ⟨false, by rw [unchanged, hget]⟩
  | some t =>
    obtain ⟨same, hsame, -⟩ := Regions.same_iff hs (hentries t hget)
    refine ⟨same, ?_⟩
    rw [unchanged, hget]
    exact hsame

/-- Setting the entry of a block that exists and queueing it. -/
theorem Ready.set {p : Progress σ} {n : Name} (h : f.Ready p) (hs : s.Sound)
    (hn : n ∈ f.blocks.keys) :
    f.Ready { p with entries := p.entries.insert n s, queue := enqueue p.queue n } where
  entries := by
    intro m t ht
    rw [Table.get?_insert] at ht
    split at ht
    · rename_i hnm
      rw [← Option.some.inj ht]
      exact ⟨hs, hnm ▸ hn⟩
    · exact h.entries ht
  exits := h.exits
  queued := by
    intro m hm
    by_cases hnm : n = m
    · exact ⟨s, by rw [Table.get?_insert, if_pos hnm]⟩
    · have hm' : m ∈ p.queue := (mem_enqueue.1 hm).resolve_right (Ne.symm hnm)
      obtain ⟨t, ht⟩ := h.queued hm'
      exact ⟨t, by rw [Table.get?_insert, if_neg hnm, ht]⟩

theorem propagate_ready (hinitial : initial.Sound) {pending : List Name} {p : Progress σ}
    (h : f.Ready p) (hpending : ∀ n ∈ pending, n ∈ f.blocks.keys) :
    ∃ q, f.propagate initial p pending = .ok q ∧ f.Ready q := by
  induction pending generalizing p with
  | nil => exact ⟨p, rfl, h⟩
  | cons n rest ih =>
    have hn : n ∈ f.blocks.keys := hpending n (by simp)
    have hrest : ∀ m ∈ rest, m ∈ f.blocks.keys := fun m hm => hpending m (List.mem_cons_of_mem _ hm)
    have hexits : ∀ m e, p.exits.get? m = some e → e.Sound := fun _ _ he => h.exits he
    -- looking at the first one succeeds, and the others are looked at from there
    have hgo : ∀ p₁ : Progress σ, f.refresh initial p n = .ok p₁ → f.Ready p₁ →
        ∃ q, f.propagate initial p (n :: rest) = .ok q ∧ f.Ready q := by
      intro p₁ hrefresh hready
      obtain ⟨q, hq, hready'⟩ := ih hready hrest
      exact ⟨q, (propagate_cons hn hrefresh rest).trans hq, hready'⟩
    rcases entryRegions_spec (f := f) Site.closed_true hinitial hexits n with
      ⟨-, hnone⟩ | ⟨-, s, hsome, hs, -⟩
    · exact hgo p (refresh_of_none hnone) h
    · obtain ⟨same, hsame⟩ := unchanged_sound (n := n) hs fun t ht => (h.entries ht).1
      cases same with
      | true => exact hgo p (refresh_of_unchanged hsome hsame) h
      | false => exact hgo _ (refresh_of_changed hsome hsame) (h.set hs hn)

/-- Any queued block can be evaluated. -/
theorem evaluate_ready (hvalid : f.validate = .ok ()) (hinitial : initial.Sound) {p : Progress σ}
    (h : f.Ready p) {n : Name} (hn : n ∈ p.queue) {queue : List Name}
    (hqueue : ∀ m ∈ queue, m ∈ p.queue) :
    ∃ q, f.evaluate c initial { p with queue } n = .ok q ∧ f.Ready q := by
  obtain ⟨s, hs⟩ := h.queued hn
  obtain ⟨hwf, hkey⟩ := h.entries hs
  obtain ⟨i, b, hat⟩ := exists_at_of_mem hkey
  obtain ⟨r, hr, hrwf⟩ := passBlock_sound (f := f) (c := c) hwf false p.memory i b
  have htaken : f.Ready (⟨p.entries, p.exits.insert n r.regions, queue, p.evaluations + 1,
      r.memory⟩ : Progress σ) := by
    refine ⟨h.entries, ?_, fun hm => h.queued (hqueue _ hm)⟩
    intro m e he
    rw [Table.get?_insert] at he
    split at he
    · rw [← Option.some.inj he]
      exact hrwf
    · exact h.exits he
  have htargets : ∀ t ∈ b.successors, t ∈ f.blocks.keys :=
    fun t ht => (targets_of_validate hvalid).2 n t (hat.edge_iff.2 ht)
  obtain ⟨q, hq, hready⟩ := propagate_ready hinitial htaken htargets
  refine ⟨q, ?_, hready⟩
  rw [evaluate, hat.get?, hat.blockIndex?, hs]
  simp only [hr, bind, Except.bind, hq, orUntracked]

theorem ready_start (hvalid : f.validate = .ok ()) (hinitial : initial.Sound) (memory : σ) :
    f.Ready (f.startProgress initial memory) where
  entries := by
    intro n s hs
    rw [startProgress, Table.get?_insert] at hs
    split at hs
    · rename_i hn
      rw [← Option.some.inj hs]
      exact ⟨hinitial, hn ▸ (targets_of_validate hvalid).1⟩
    · cases hs
  exits := by
    intro n e he
    cases he
  queued := by
    intro n hn
    rw [List.mem_singleton.1 hn]
    exact ⟨initial, Table.get?_insert_self _ _ _⟩

/-- Whatever blocks are taken, the worklist stays ready. -/
theorem Run.ready (hvalid : f.validate = .ok ()) (hinitial : initial.Sound) {p q : Progress σ}
    (h : f.Ready p) (hrun : f.Run c initial p q) : f.Ready q := by
  induction hrun with
  | refl => exact h
  | tail _ hstep ih =>
    obtain ⟨n, hn, hok⟩ := hstep
    obtain ⟨q', hq', hready⟩ := evaluate_ready (c := c) hvalid hinitial ih hn
      fun m hm => List.mem_of_mem_erase hm
    rw [Except.ok.inj (hok.symm.trans hq')]
    exact hready

/-- Draining the queue empties it or is stopped at the bound. -/
theorem drain_ready (hvalid : f.validate = .ok ()) (hinitial : initial.Sound) (bound : Int)
    (fuel : Nat) {p : Progress σ} (h : f.Ready p) :
    (∃ q, f.drain c initial bound fuel p = .ok q ∧ f.Ready q) ∨
      f.drain c initial bound fuel p = .error (.diverged f.name bound) := by
  induction fuel generalizing p with
  | zero =>
    cases hq : p.queue with
    | nil => exact .inl ⟨p, by simp only [drain, hq], h⟩
    | cons n rest => exact .inr (by simp only [drain, hq])
  | succ fuel ih =>
    cases hq : p.queue with
    | nil => exact .inl ⟨p, by simp only [drain, hq], h⟩
    | cons n rest =>
      have hn : n ∈ p.queue := by simp [hq]
      have hrest : ∀ m ∈ rest, m ∈ p.queue := by
        intro m hm
        rw [hq]
        exact List.mem_cons_of_mem _ hm
      obtain ⟨q, hok, hready⟩ := evaluate_ready (c := c) hvalid hinitial h hn hrest
      have hstep : f.drain c initial bound (fuel + 1) p = f.drain c initial bound fuel q := by
        rw [drain, hq]
        simp only [hok, bind, Except.bind]
      rw [hstep]
      exact ih hready

-- ============================================================================
-- The last pass
-- ============================================================================

theorem collect_sound {entries : Table Name Regions}
    (hentries : ∀ n s, entries.get? n = some s → s.Sound) (i : Nat) (memory : σ)
    (l : List (Name × Block)) : ∃ r, f.collect c entries i memory l = .ok r := by
  induction l generalizing i memory with
  | nil => exact ⟨([], memory), rfl⟩
  | cons x l ih =>
    obtain ⟨n, b⟩ := x
    cases hn : entries.get? n with
    | none =>
      obtain ⟨r, hr⟩ := ih (i + 1) memory
      exact ⟨r, by simp only [collect, hn, hr]⟩
    | some s =>
      obtain ⟨q, hq, -⟩ := passBlock_sound (f := f) (c := c) (hentries n s hn) true memory i b
      obtain ⟨⟨more, m⟩, hr⟩ := ih (i + 1) q.memory
      refine ⟨(q.accesses ++ more, m), ?_⟩
      simp only [collect, hn, hq, hr, bind, Except.bind, pure, Except.pure]

theorem solve_sound (hvalid : f.validate = .ok ()) (c : Classifier σ) (memory : σ) (bound : Int) :
    (∃ r, f.solve c memory bound = .ok r) ∨
      f.solve c memory bound = .error (.diverged f.name bound) := by
  obtain ⟨initial, hentry, hwf, -⟩ := entry_view f
  have hinitial : initial.Sound := hwf _
  rcases drain_ready (c := c) hvalid hinitial bound bound.toNat
    (ready_start hvalid hinitial memory) with ⟨p, hp, hready⟩ | hdiverged
  · obtain ⟨⟨accesses, m⟩, hcollect⟩ := collect_sound (f := f) (c := c)
      (fun n s hs => (hready.entries hs).1) 0 p.memory f.blocks.entries
    refine .inl ⟨(⟨p.entries, p.exits, accesses, p.evaluations, bound⟩, m), ?_⟩
    simp only [solve, hentry, hp, hcollect, orUntracked, bind, Except.bind, pure, Except.pure]
  · refine .inr ?_
    simp only [solve, hentry, hdiverged, orUntracked, bind, Except.bind]

/-- Checking a function that passed validation gives a result or is stopped at
    the bound, for every classifier: all jumps lead to blocks, and in whatever
    order blocks are taken, every queued block exists and can be evaluated. -/
theorem check_never_stuck (hvalid : f.validate = .ok ()) {config : Config}
    (henabled : config.enabled = true) (c : Classifier σ) (memory : σ) (bound : Option Int) :
    (f.entry ∈ f.blocks.keys ∧ ∀ p t, f.Edge p t → t ∈ f.blocks.keys) ∧
    (∃ initial, Regions.entry f = .ok initial ∧
      ∀ p, f.Run c initial (f.startProgress initial memory) p → ∀ n ∈ p.queue,
        n ∈ f.blocks.keys ∧
          ∃ q, f.evaluate c initial { p with queue := p.queue.erase n } n = .ok q) ∧
    ((∃ a m, f.check config c memory bound = .ok (f.resultOf config.severity a, m)) ∨
      f.check config c memory bound =
        .error (.obstacle (.diverged f.name (bound.getD f.iterationBound)))) := by
  refine ⟨targets_of_validate hvalid, ?_, ?_⟩
  · obtain ⟨initial, hentry, hwf, -⟩ := entry_view f
    refine ⟨initial, hentry, ?_⟩
    intro p hrun n hn
    have hready := hrun.ready hvalid (hwf _) (ready_start hvalid (hwf _) memory)
    obtain ⟨s, hs⟩ := hready.queued hn
    obtain ⟨q, hq, -⟩ := evaluate_ready (c := c) hvalid (hwf _) hready hn
      fun m hm => List.mem_of_mem_erase hm
    exact ⟨(hready.entries hs).2, q, hq⟩
  · rcases solve_sound hvalid c memory (bound.getD f.iterationBound) with ⟨⟨a, m⟩, hok⟩ | hdiverged
    · refine .inl ⟨a, m, ?_⟩
      simp only [check, henabled, if_true, hvalid, hok]
    · refine .inr ?_
      simp only [check, henabled, if_true, hvalid, hdiverged]

/-- A classifier that changes its mind at every call. -/
theorem sendingLoop_never_stuck : sendingLoop.validate = .ok () ∧
    ((∃ a m, sendingLoop.check {} (.inTurn [.entering, .sameDomain, .spawning]) 0 none =
      .ok (sendingLoop.resultOf "error" a, m)) ∨
      sendingLoop.check {} (.inTurn [.entering, .sameDomain, .spawning]) 0 none =
        .error (.obstacle (.diverged "relay" sendingLoop.iterationBound))) := by
  have hvalid : sendingLoop.validate = .ok () := by decide +kernel
  exact ⟨hvalid, (check_never_stuck hvalid rfl (.inTurn [.entering, .sameDomain, .spawning]) 0
    none).2.2⟩

end Func

end Sendability
