/-
  The order of the arguments of a union.

  A union hangs the representatives of its arguments below the one that leads
  them (`Partition.Leads`): the heaviest, and of those the least name. There is
  one such name, the total weight is a sum, and the records are merged in the
  order of the names they were kept under. So the outcome is a function of the
  set of arguments, also where the states that are compared differ in the
  lengths of their paths: `Partition.union_alike` and `Regions.union_alike`.
-/

import Sendability.Proofs.Coarsening

namespace Sendability

-- ============================================================================
-- Partitions
-- ============================================================================

namespace Partition

variable {p q : Partition} {top a b : Name} {vs vs' roots roots' : List Name}

theorem Leads.of_alike (h : q.Leads vs top) (hq : Alike p q) : p.Leads vs top := by
  obtain ⟨hamong, hover⟩ := h
  simp only [hq.rep, Outweighs, hq.weights] at hamong hover
  exact ⟨hamong, hover⟩

/-- What leads the representatives of some names leads the names. -/
theorem Leads.of_roots (h : p.Leads roots top) (hmem : ∀ z, z ∈ roots ↔ ∃ v ∈ vs, p.Rep v z) :
    p.Leads vs top where
  among := by
    obtain ⟨z, hz, htop⟩ := h.among
    obtain ⟨v, hv, hvz⟩ := (hmem z).1 hz
    rw [htop.unique hvz.self]
    exact ⟨v, hv, hvz⟩
  outweighs := by
    intro v hv r hr
    exact h.outweighs r ((hmem r).2 ⟨v, hv, hr⟩) r hr.self

/-- One representative leads some names, in whatever order they are listed. -/
theorem Leads.unique (h : p.Leads vs a) (h' : p.Leads vs' b) (hsame : ∀ v, v ∈ vs' ↔ v ∈ vs) :
    a = b := by
  obtain ⟨v, hv, hva⟩ := h.among
  obtain ⟨w, hw, hwb⟩ := h'.among
  have hab : p.Outweighs a b := h.outweighs w ((hsame w).1 hw) b hwb
  have hba : p.Outweighs b a := h'.outweighs v ((hsame v).2 hv) a hva
  exact hab.antisymm hba

theorem alike_hang (h : Alike p q) (hroots : ∀ x ∈ roots, p.Rep x x) (htop : top ∈ roots)
    (hsame : ∀ x, x ∈ roots' ↔ x ∈ roots) (total : Nat) :
    Alike (p.hang roots top total) (q.hang roots' top total) := by
  have hroots' : ∀ x ∈ roots', q.Rep x x := fun x hx => (h.rep x x).2 (hroots x ((hsame x).1 hx))
  refine ⟨?_, ?_, ?_⟩
  · rw [names_hang top total hroots', names_hang top total hroots, h.names]
  · rw [hang, hang, h.weights, Table.foldl_erase_congr hsame]
  · intro x y
    rw [rep_hang total hroots' ((hsame top).2 htop), rep_hang total hroots htop]
    simp only [h.rep, hsame]

/-- Unions of the same names give partitions that are alike the same
    representative, and leave them alike. -/
theorem union_alike (hp : p.WellFormed) (hpq : Alike p q) {first first' : Name}
    {others others' : List Name} (hvs : ∀ v ∈ first :: others, v ∈ p.names)
    (hsame : ∀ v, v ∈ first' :: others' ↔ v ∈ first :: others) :
    ∃ top p' q', p.union first others = .ok (top, p') ∧ q.union first' others' = .ok (top, q') ∧
      p.Leads (first :: others) top ∧ p'.WellFormed ∧ Alike p' q' := by
  have hvs' : ∀ v ∈ first' :: others', v ∈ q.names := by
    intro v hv
    rw [hpq.names]
    exact hvs v ((hsame v).1 hv)
  obtain ⟨top, p', t, rs, total, hok, -, ht, hmem, hleads, htotal, hp'⟩ := union_eq hp hvs
  obtain ⟨top', q', u, rs', total', hok', -, hu, hmem', hleads', htotal', hq'⟩ :=
    union_eq (hpq.wellFormed hp) hvs'
  have htu : Alike t u := ht.symm.trans (hpq.trans hu)
  -- both find the same representatives, so the same one leads
  have hroots : ∀ z, z ∈ distinct rs' ↔ z ∈ distinct rs := by
    intro z
    simp only [hmem, hmem', hsame, htu.rep]
  obtain rfl : top = top' :=
    (hleads.of_roots hmem).unique ((hleads'.of_roots hmem').of_alike htu) hsame
  have hself := rep_self_of_mem hmem
  have htop := hleads.mem hself
  have hperm : (distinct rs').Perm (distinct rs) :=
    (List.perm_ext_iff_of_nodup (nodup_distinct _) (nodup_distinct _)).2 hroots
  obtain rfl : total = total' := by
    rw [totalWeight_eq_sum htotal, totalWeight_eq_sum htotal', htu.weights, (hperm.map _).sum_nat]
  have hone : distinct rs' = [top] ↔ distinct rs = [top] := by
    rw [← List.perm_singleton, ← List.perm_singleton]
    exact ⟨hperm.symm.trans, hperm.trans⟩
  refine ⟨top, p', q', hok, hok', (hleads.of_roots hmem).of_alike ht, ?_, ?_⟩
  · obtain ⟨_, w, hw, hwf, -⟩ := union_spec hp hvs
    obtain ⟨-, rfl⟩ := Prod.mk.inj (Except.ok.inj (hok.symm.trans hw))
    exact hwf
  · rw [hp', hq']
    by_cases hd : distinct rs = [top]
    · rw [if_pos hd, if_pos (hone.2 hd)]
      exact htu
    · rw [if_neg hd, if_neg fun h => hd (hone.1 h)]
      exact alike_hang htu hself htop hroots total

end Partition

-- ============================================================================
-- States
-- ============================================================================

namespace Regions

variable {s t : Regions} {first first' : Name} {others others' : List Name}

/-- Unions of the same names give states that are alike the same representative,
    and leave them alike. -/
theorem union_alike (hs : s.partition.WellFormed) (h : Alike s t)
    (hvs : ∀ v ∈ first :: others, v ∈ s.names)
    (hsame : ∀ v, v ∈ first' :: others' ↔ v ∈ first :: others) :
    ∃ top s' t', s.union first others = .ok (top, s') ∧ t.union first' others' = .ok (top, t') ∧
      s.partition.Leads (first :: others) top ∧ s'.partition.WellFormed ∧ Alike s' t' := by
  have hvs' : ∀ v ∈ first' :: others', v ∈ t.partition.names := by
    intro v hv
    rw [h.partition.names]
    exact hvs v ((hsame v).1 hv)
  obtain ⟨olds, p, hfa, hp, holds⟩ := Partition.findAll_spec hs hvs
  obtain ⟨olds', q, hfa', hq, holds'⟩ := Partition.findAll_spec (h.partition.wellFormed hs) hvs'
  have hvsp : ∀ v ∈ first :: others, v ∈ p.names := by
    intro v hv
    rw [hp.names]
    exact hvs v hv
  obtain ⟨top, p', q', hu, hu', hleads, hwf, halike⟩ := Partition.union_alike (hp.wellFormed hs)
    (hp.symm.trans (h.partition.trans hq)) hvsp hsame
  -- the records are taken in the order of the names they were kept under
  have hsorted : sortText (distinct olds') = sortText (distinct olds) := by
    rw [sortText_eq_iff (nodup_distinct _) (nodup_distinct _)]
    intro z
    simp only [mem_distinct, holds, holds', h.partition.rep, hsame]
  let taken := takeRecords s.records Record.empty (sortText (distinct olds))
  let records := if taken.1.transferred then taken.2.insert top taken.1 else taken.2
  refine ⟨top, ⟨p', records⟩, ⟨q', records⟩, ?_, ?_, hleads.of_alike hp, hwf, halike, rfl⟩
  · simp only [union, hfa, hu, bind, Except.bind, pure, Except.pure, records, taken]
    split <;> rfl
  · simp only [union, hfa', hu', hsorted, h.records, bind, Except.bind, pure, Except.pure, records,
      taken]
    split <;> rfl

/-- Whatever the order of the arguments of a union, and however often each is
    listed, it gives the heaviest of their representatives, and of those the least
    name, and leaves the same representatives, weights and records. -/
theorem union_order_irrelevant (h : s.Built fun _ => True)
    (hvs : ∀ v ∈ first :: others, v ∈ s.names)
    (hsame : ∀ v, v ∈ first' :: others' ↔ v ∈ first :: others) :
    ∃ top t t', s.union first others = .ok (top, t) ∧ s.union first' others' = .ok (top, t') ∧
      s.partition.Leads (first :: others) top ∧ t'.partition.weights = t.partition.weights ∧
      t'.records = t.records ∧ Indistinct t t' := by
  have hs := (h.wellFormed Site.closed_true).partition
  obtain ⟨top, t, t', hok, hok', hleads, ht, halike⟩ := union_alike hs (Alike.refl s) hvs hsame
  exact ⟨top, t, t', hok, hok', hleads, halike.partition.weights, halike.records,
    halike.indistinct ht⟩

/-- A pair and two names on their own; the pair and one of those were sent, at one
    point. -/
def scattered : Except Untracked Regions := do
  let (_, s) ← ((((empty.track "a").track "b").track "c").track "d").union "b" ["d"]
  let s ← s.mark "a" sending
  s.mark "d" { sending with values := ["d", "b"] }

theorem built_scattered (h : scattered = .ok s) : s.Built fun _ => True := by
  obtain ⟨⟨_, s₁⟩, h₁, h⟩ := ok_of_bind h
  obtain ⟨s₂, h₂, h⟩ := ok_of_bind h
  exact (((((Built.empty.track _).track _).track _).track _).union h₁ |>.mark trivial h₂).mark
    trivial h

/-- The pair is the heaviest, though its name is not the least. -/
theorem scattered_united : ∃ s t t', scattered = .ok s ∧
    s.union "a" ["d", "c", "d"] = .ok ("b", t) ∧ s.union "c" ["d", "a"] = .ok ("b", t') ∧
    t'.partition.weights = t.partition.weights ∧ t'.records = t.records ∧ Indistinct t t' := by
  obtain ⟨s, hs⟩ : ∃ s, scattered = .ok s := exists_ok_of_isSome (by decide +kernel)
  have hread : (scattered.bind fun s => (s.union "a" ["d", "c", "d"]).map fun r => (s.names, r.1)) =
      .ok (["a", "b", "c", "d"], "b") := by decide +kernel
  rw [hs] at hread
  obtain ⟨⟨top₀, t₀⟩, hunion, hread⟩ := ok_of_map hread
  obtain ⟨hnames, rfl⟩ := Prod.mk.inj hread
  have hvs : ∀ v ∈ (["a", "d", "c", "d"] : List Name), v ∈ s.names := by
    rw [hnames]
    decide +kernel
  have hsame : ∀ v, v ∈ (["c", "d", "a"] : List Name) ↔ v ∈ (["a", "d", "c", "d"] : List Name) := by
    intro v
    simp only [List.mem_cons, List.not_mem_nil, or_false]
    tauto
  obtain ⟨top, t, t', hok, hok', -, hrest⟩ := union_order_irrelevant (built_scattered hs) hvs hsame
  obtain ⟨rfl, rfl⟩ := Prod.mk.inj (Except.ok.inj (hunion.symm.trans hok))
  exact ⟨s, t₀, t', hs, hok, hok', hrest⟩

end Regions

end Sendability
