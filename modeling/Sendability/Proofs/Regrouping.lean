/-
  What uniting and detaching do to representatives.

  `union` gives the regions of some names the representative that leads them:
  the heaviest, and of those the least name (`Leads`). `detach` makes a name its
  own representative and leaves the others of its region together. Both succeed
  on tracked names and keep the partition well formed. `classes` lists the
  regions that result.

  What either does to the ways up is stated once (`path_of_hang`,
  `path_of_detached`); where representatives go is read off that.
-/

import Mathlib.Algebra.Order.Ring.Nat
import Sendability.Proofs.FlowGraph
import Sendability.Proofs.Forest
import Sendability.Proofs.Sorting

namespace Sendability
namespace Partition

variable {p q t : Partition} {v u w r r' : Name}

/-! ## Uniting -/

theorem weight_eq_ok_iff {n : Nat} : p.weight r = .ok n ↔ p.weights.get? r = some n := by
  rw [weight]
  cases p.weights.get? r with
  | none => simp
  | some m => simp

theorem weight_spec (hp : p.WellFormed) (hr : p.Rep r r) :
    ∃ n, p.weight r = .ok n ∧ p.weights.get? r = some n := by
  have hmem : r ∈ p.weights.keys := (hp.weights r).2 hr
  rw [Table.mem_keys_iff, Option.isSome_iff_exists] at hmem
  obtain ⟨n, hn⟩ := hmem
  exact ⟨n, weight_eq_ok_iff.2 hn, hn⟩

/-- Of two representatives `a` is the one that stays on top: it has more members,
    or as many and not the greater name. -/
def Outweighs (p : Partition) (a b : Name) : Prop :=
  ∃ m n, p.weights.get? a = some m ∧ p.weights.get? b = some n ∧ (n < m ∨ (n = m ∧ a ≤ b))

theorem Outweighs.trans (h : p.Outweighs v u) (h' : p.Outweighs u w) : p.Outweighs v w := by
  obtain ⟨a, b, ha, hb, hab⟩ := h
  obtain ⟨b', c, hb', hc, hbc⟩ := h'
  obtain rfl := Option.some.inj (hb.symm.trans hb')
  refine ⟨a, c, ha, hc, ?_⟩
  rcases hab with hab | ⟨hab, hle⟩
  · exact .inl (by omega)
  · rcases hbc with hbc | ⟨hbc, hle'⟩
    · exact .inl (by omega)
    · exact .inr ⟨by omega, Text.le_trans hle hle'⟩

theorem Outweighs.antisymm (h : p.Outweighs v u) (h' : p.Outweighs u v) : v = u := by
  obtain ⟨a, b, ha, hb, hab⟩ := h
  obtain ⟨b', a', hb', ha', hba⟩ := h'
  obtain rfl := Option.some.inj (hb.symm.trans hb')
  obtain rfl := Option.some.inj (ha.symm.trans ha')
  rcases hab with hab | ⟨hab, hle⟩
  · omega
  · rcases hba with hba | ⟨-, hle'⟩
    · omega
    · exact Text.le_antisymm hle hle'

/-- The heavier of two representatives is the one that stays on top of both. -/
theorem heavier_spec (hp : p.WellFormed) (hr : p.Rep r r) (hu : p.Rep u u) :
    ∃ c, p.heavier r u = .ok c ∧ (c = r ∨ c = u) ∧ p.Outweighs c r ∧ p.Outweighs c u := by
  obtain ⟨m, hm, hgetr⟩ := weight_spec hp hr
  obtain ⟨n, hn, hgetu⟩ := weight_spec hp hu
  have hself : ∀ x : Name, x ≤ x := fun x => (Text.le_total x x).elim id id
  refine ⟨if m < n ∨ (m = n ∧ u < r) then u else r, ?_, ?_⟩
  · simp [heavier, hm, hn, bind, Except.bind, pure, Except.pure]
  split
  · rename_i h
    refine ⟨.inr rfl, ⟨n, m, hgetu, hgetr, ?_⟩, ⟨n, n, hgetu, hgetu, .inr ⟨rfl, hself u⟩⟩⟩
    rcases h with h | ⟨h, hlt⟩
    · exact .inl h
    · exact .inr ⟨h, fun hlt' => Text.lt_irrefl u (Text.lt_trans hlt hlt')⟩
  · rename_i h
    rw [not_or, not_and] at h
    refine ⟨.inl rfl, ⟨m, m, hgetr, hgetr, .inr ⟨rfl, hself r⟩⟩, ⟨m, n, hgetr, hgetu, ?_⟩⟩
    by_cases hmn : n < m
    · exact .inl hmn
    · have heq : m = n := by omega
      exact .inr ⟨heq.symm, h.2 heq⟩

/-- `top` represents one of some names and outweighs the representatives of all
    of them. -/
structure Leads (p : Partition) (vs : List Name) (top : Name) : Prop where
  among : ∃ v ∈ vs, p.Rep v top
  outweighs : ∀ v ∈ vs, ∀ r, p.Rep v r → p.Outweighs top r

theorem Leads.mem {roots : List Name} {top : Name} (h : p.Leads roots top)
    (hroots : ∀ x ∈ roots, p.Rep x x) : top ∈ roots := by
  obtain ⟨v, hv, htop⟩ := h.among
  rw [htop.unique (hroots v hv)]
  exact hv

/-- The heaviest representative leads those compared. -/
theorem heaviest_spec (hp : p.WellFormed) {rs : List Name} (hr : p.Rep r r)
    (hrs : ∀ x ∈ rs, p.Rep x x) : ∃ top, p.heaviest r rs = .ok top ∧ p.Leads (r :: rs) top := by
  induction rs generalizing r with
  | nil =>
    obtain ⟨n, -, hn⟩ := weight_spec hp hr
    refine ⟨r, rfl, ⟨r, by simp, hr⟩, ?_⟩
    intro v hv x hx
    obtain rfl := List.mem_singleton.1 hv
    rw [hx.unique hr]
    exact ⟨n, n, hn, hn, .inr ⟨rfl, (Text.le_total v v).elim id id⟩⟩
  | cons b rest ih =>
    have hb : p.Rep b b := hrs b (by simp)
    obtain ⟨c, hc, hcr, hcover, hcover'⟩ := heavier_spec hp hr hb
    have hcrep : p.Rep c c := by
      rcases hcr with rfl | rfl
      · exact hr
      · exact hb
    obtain ⟨top, htop, hleads⟩ := ih hcrep fun x hx => hrs x (List.mem_cons_of_mem _ hx)
    have hctop : p.Outweighs top c := hleads.outweighs c (by simp) c hcrep
    refine ⟨top, by simp [heaviest, hc, htop, bind, Except.bind], ?_, ?_⟩
    · obtain ⟨v, hv, hvtop⟩ := hleads.among
      rcases List.mem_cons.1 hv with rfl | hv
      · rcases hcr with rfl | rfl
        · exact ⟨v, by simp, hvtop⟩
        · exact ⟨v, by simp, hvtop⟩
      · exact ⟨v, by simp [hv], hvtop⟩
    · intro v hv x hx
      rcases List.mem_cons.1 hv with rfl | hv
      · rw [hx.unique hr]
        exact hctop.trans hcover
      · rcases List.mem_cons.1 hv with rfl | hv
        · rw [hx.unique hb]
          exact hctop.trans hcover'
        · exact hleads.outweighs v (List.mem_cons_of_mem _ hv) x hx

theorem totalWeight_spec (hp : p.WellFormed) {rs : List Name} (hrs : ∀ x ∈ rs, p.Rep x x) :
    ∃ n, p.totalWeight rs = .ok n := by
  induction rs with
  | nil => exact ⟨0, rfl⟩
  | cons r rest ih =>
    obtain ⟨m, hm, -⟩ := weight_spec hp (hrs r (by simp))
    obtain ⟨n, hn⟩ := ih fun x hx => hrs x (List.mem_cons_of_mem _ hx)
    exact ⟨m + n, by simp [totalWeight, hm, hn, bind, Except.bind, pure, Except.pure]⟩

/-- The total weight is a sum, so the order of the representatives does not
    matter. -/
theorem totalWeight_eq_sum {rs : List Name} {n : Nat} (h : p.totalWeight rs = .ok n) :
    n = (rs.map fun r => (p.weights.get? r).getD 0).sum := by
  induction rs generalizing n with
  | nil => exact (Except.ok.inj h).symm
  | cons r rest ih =>
    rw [totalWeight] at h
    obtain ⟨m, hm, h⟩ := ok_of_bind h
    obtain ⟨k, hk, h⟩ := ok_of_bind h
    rw [List.map_cons, List.sum_cons, ← ih hk, weight_eq_ok_iff.1 hm]
    exact (Except.ok.inj h).symm

theorem get?_parents_hang (roots : List Name) (top : Name) (total : Nat) (k : Name) :
    (p.hang roots top total).parents.get? k =
      if k ∈ roots then some top else p.parents.get? k :=
  Table.get?_foldl_insert roots top p.parents k

theorem get?_weights_hang (roots : List Name) (top : Name) (total : Nat) (k : Name) :
    (p.hang roots top total).weights.get? k =
      if top = k then some total else if k ∈ roots then none else p.weights.get? k := by
  rw [hang, Table.get?_insert, Table.get?_foldl_erase]

/-- A way up is what it was, with one more step where it ended at a representative
    that was hung below another. -/
theorem path_of_hang {roots : List Name} {top : Name} {total : Nat}
    (hroots : ∀ x ∈ roots, p.Rep x x) (htop : top ∈ roots) {x y : Name} {l : List Name}
    (h : Path (p.hang roots top total).parents x l y) :
    ∃ l' z, Path p.parents x l' z ∧ y = (if z ∈ roots then top else z) ∧
      l = if z ∈ roots ∧ z ≠ top then l' ++ [z] else l' := by
  induction h with
  | @root y h =>
    rw [get?_parents_hang] at h
    split at h
    · rename_i hy
      obtain rfl := Option.some.inj h
      exact ⟨[], top, .root (rep_self_iff.1 (hroots top hy)), by simp, by simp⟩
    · rename_i hy
      exact ⟨[], y, .root h, by simp [hy], by simp [hy]⟩
  | @step x w y l h hxw _ ih =>
    obtain ⟨l', z, hz, hy, hl⟩ := ih
    rw [get?_parents_hang] at h
    split at h
    · -- a representative is now one step below the top
      rename_i hx
      obtain rfl := Option.some.inj h
      obtain ⟨rfl, rfl⟩ := hz.unique (.root (rep_self_iff.1 (hroots _ htop)))
      refine ⟨[], x, .root (rep_self_iff.1 (hroots x hx)), ?_, ?_⟩
      · simp [hx, hy]
      · simp [hx, hl, Ne.symm hxw]
    · refine ⟨x :: l', z, .step h hxw hz, hy, ?_⟩
      rw [hl]
      split
      · rfl
      · rfl

/-- Hanging representatives below one of them gives their regions that one. -/
theorem rep_hang {roots : List Name} {top : Name} (total : Nat)
    (hroots : ∀ x ∈ roots, p.Rep x x) (htop : top ∈ roots) (x y : Name) :
    (p.hang roots top total).Rep x y ↔
      ∃ z, p.Rep x z ∧ y = if z ∈ roots then top else z := by
  have hget := get?_parents_hang (p := p) roots top total
  constructor
  · rintro ⟨l, hl⟩
    obtain ⟨l', z, hz, hy, -⟩ := path_of_hang hroots htop hl
    exact ⟨z, ⟨l', hz⟩, hy⟩
  · rintro ⟨z, ⟨l, hl⟩, rfl⟩
    have htopRep : (p.hang roots top total).Rep top top :=
      ⟨[], .root (by rw [hget, if_pos htop])⟩
    induction hl with
    | @root z h =>
      split
      · rename_i hz
        exact htopRep.step (by rw [hget, if_pos hz])
      · rename_i hz
        exact ⟨[], .root (by rw [hget, if_neg hz, h])⟩
    | @step x w z l h hxw hl ih =>
      refine ih.step ?_
      rw [hget, if_neg]
      · exact h
      · intro hx
        exact hxw (Option.some.inj (h.symm.trans (rep_self_iff.1 (hroots x hx))))

theorem names_hang {roots : List Name} (top : Name) (total : Nat)
    (hroots : ∀ x ∈ roots, p.Rep x x) : (p.hang roots top total).names = p.names :=
  Table.keys_foldl_insert (fun k hk => (hroots k hk).mem_names) top

theorem wellFormed_hang (hp : p.WellFormed) {roots : List Name} {top : Name} (total : Nat)
    (hroots : ∀ x ∈ roots, p.Rep x x) (htop : top ∈ roots) :
    (p.hang roots top total).WellFormed where
  rep := by
    intro x hx
    rw [names_hang top total hroots] at hx
    obtain ⟨z, hz⟩ := hp.rep x hx
    exact ⟨_, (rep_hang total hroots htop x _).2 ⟨z, hz, rfl⟩⟩
  weights := by
    intro r
    rw [Table.mem_keys_iff, get?_weights_hang, rep_hang total hroots htop]
    by_cases hr : top = r
    · subst hr
      simp only [if_true, Option.isSome_some, true_iff]
      exact ⟨top, hroots top htop, by simp [htop]⟩
    · by_cases hmem : r ∈ roots
      · simp only [hr, hmem, if_false, if_true, Option.isSome_none, Bool.false_eq_true, false_iff]
        rintro ⟨z, -, hz⟩
        split at hz
        · exact hr hz.symm
        · rename_i hz'
          exact hz' (hz ▸ hmem)
      · simp only [hr, hmem, if_false, ← Table.mem_keys_iff, hp.weights r]
        constructor
        · intro h
          exact ⟨r, h, by simp [hmem]⟩
        · rintro ⟨z, hz, hzr⟩
          split at hzr
          · exact absurd hzr.symm hr
          · exact hzr ▸ hz

/-- `q` is `p` with the regions of `vs` united, and `top` represents them. -/
structure United (p q : Partition) (vs : List Name) (top : Name) : Prop where
  names : q.names = p.names
  among : ∃ v ∈ vs, p.Rep v top
  rep : ∀ x y, q.Rep x y ↔
    ∃ z, p.Rep x z ∧ ((∃ v ∈ vs, p.Rep v z) ∧ y = top ∨ (¬ ∃ v ∈ vs, p.Rep v z) ∧ y = z)

/-- After a union two names share a representative if they did before, or if
    both did with one of the united names. -/
theorem United.linked {vs : List Name} {top : Name} (h : United p q vs top) (a b : Name) :
    (∃ y, q.Rep a y ∧ q.Rep b y) ↔ (∃ z, p.Rep a z ∧ p.Rep b z) ∨
      ((∃ z, p.Rep a z ∧ ∃ v ∈ vs, p.Rep v z) ∧ ∃ z, p.Rep b z ∧ ∃ v ∈ vs, p.Rep v z) := by
  refine ⟨?_, ?_⟩
  · rintro ⟨y, ha, hb⟩
    obtain ⟨z, haz, hay⟩ := (h.rep a y).1 ha
    obtain ⟨w, hbw, hby⟩ := (h.rep b y).1 hb
    rcases hay with ⟨hz, rfl⟩ | ⟨hz, rfl⟩
    · rcases hby with ⟨hw, -⟩ | ⟨hw, rfl⟩
      · exact .inr ⟨⟨z, haz, hz⟩, ⟨w, hbw, hw⟩⟩
      · exact absurd h.among hw
    · rcases hby with ⟨hw, rfl⟩ | ⟨hw, rfl⟩
      · exact absurd h.among hz
      · exact .inl ⟨y, haz, hbw⟩
  · rintro (⟨z, ha, hb⟩ | ⟨⟨z, ha, hz⟩, ⟨w, hb, hw⟩⟩)
    · by_cases hz : ∃ v ∈ vs, p.Rep v z
      · exact ⟨top, (h.rep a top).2 ⟨z, ha, .inl ⟨hz, rfl⟩⟩, (h.rep b top).2 ⟨z, hb, .inl ⟨hz, rfl⟩⟩⟩
      · exact ⟨z, (h.rep a z).2 ⟨z, ha, .inr ⟨hz, rfl⟩⟩, (h.rep b z).2 ⟨z, hb, .inr ⟨hz, rfl⟩⟩⟩
    · exact ⟨top, (h.rep a top).2 ⟨z, ha, .inl ⟨hz, rfl⟩⟩, (h.rep b top).2 ⟨w, hb, .inl ⟨hw, rfl⟩⟩⟩

theorem United.of_alike {vs : List Name} {top : Name} (h : United t q vs top) (ht : Alike p t) :
    United p q vs top := by
  obtain ⟨hnames, hamong, hrep⟩ := h
  simp only [ht.rep] at hamong hrep
  exact ⟨hnames.trans ht.names, hamong, hrep⟩

/-- Names of one region are united already. -/
theorem united_self {vs : List Name} (hone : ∀ z, (∃ v ∈ vs, p.Rep v z) ↔ z = r) :
    United p p vs r := by
  refine ⟨rfl, (hone r).2 rfl, ?_⟩
  intro x y
  refine ⟨?_, ?_⟩
  · intro hy
    refine ⟨y, hy, ?_⟩
    by_cases hyr : y = r
    · exact .inl ⟨(hone y).2 hyr, hyr⟩
    · exact .inr ⟨fun h => hyr ((hone y).1 h), rfl⟩
  · rintro ⟨z, hz, ⟨h, rfl⟩ | ⟨-, rfl⟩⟩
    · exact (hone z).1 h ▸ hz
    · exact hz

/-- Hanging the representatives of some names below one of them unites the
    names. -/
theorem united_hang {vs roots : List Name} {top : Name} (total : Nat)
    (hroots : ∀ z ∈ roots, p.Rep z z) (htop : top ∈ roots)
    (hmem : ∀ z, z ∈ roots ↔ ∃ v ∈ vs, p.Rep v z) : United p (p.hang roots top total) vs top := by
  refine ⟨names_hang top total hroots, (hmem top).1 htop, ?_⟩
  intro x y
  rw [rep_hang total hroots htop]
  refine exists_congr fun z => and_congr_right fun _ => ?_
  rw [← hmem z]
  by_cases hz : z ∈ roots
  · simp [hz, eq_comm]
  · simp [hz, eq_comm]

/-- What represents one of some names represents itself. -/
theorem rep_self_of_mem {vs roots : List Name} (hmem : ∀ z, z ∈ roots ↔ ∃ v ∈ vs, p.Rep v z) :
    ∀ z ∈ roots, p.Rep z z := by
  intro z hz
  obtain ⟨v, -, hv⟩ := (hmem z).1 hz
  exact hv.self

/-- A union finds the representatives of its names, and hangs them below the one
    that leads them if there are several. -/
theorem union_eq (hp : p.WellFormed) {first : Name} {others : List Name}
    (hvs : ∀ v ∈ first :: others, v ∈ p.names) :
    ∃ (top : Name) (q t : Partition) (rs : List Name) (total : Nat),
      p.union first others = .ok (top, q) ∧ p.findAll (first :: others) = .ok (rs, t) ∧ Alike p t ∧
      (∀ z, z ∈ distinct rs ↔ ∃ v ∈ first :: others, t.Rep v z) ∧ t.Leads (distinct rs) top ∧
      t.totalWeight (distinct rs) = .ok total ∧
      q = if distinct rs = [top] then t else t.hang (distinct rs) top total := by
  obtain ⟨r, q, hf, hr, hq⟩ := find_spec hp (hvs first (by simp))
  have hothers : ∀ v ∈ others, v ∈ q.names := by
    intro v hv
    rw [hq.names]
    exact hvs v (List.mem_cons_of_mem _ hv)
  obtain ⟨rs, t, hfa, ht, hrs⟩ := findAll_spec (hq.wellFormed hp) hothers
  have hpt : Alike p t := hq.trans ht
  have hwf := hpt.wellFormed hp
  have hall : p.findAll (first :: others) = .ok (r :: rs, t) := by simp [findAll, hf, hfa]
  -- the representatives that were found are those of the names
  have hmem : ∀ z, z ∈ distinct (r :: rs) ↔ ∃ v ∈ first :: others, t.Rep v z := by
    intro z
    have hz : p.Rep first z ↔ z = r := ⟨fun h => h.unique hr, fun h => h ▸ hr⟩
    simp [hrs, hpt.rep, hq.rep, hz]
  have hroots := rep_self_of_mem hmem
  have hrmem : r ∈ distinct (r :: rs) := by simp
  obtain ⟨top, htop, hleads⟩ := heaviest_spec hwf (hroots r hrmem) hroots
  obtain ⟨total, htotal⟩ := totalWeight_spec hwf hroots
  -- the first representative is compared twice
  have hleads : t.Leads (distinct (r :: rs)) top := by
    refine ⟨?_, fun v hv => hleads.outweighs v (List.mem_cons_of_mem _ hv)⟩
    obtain ⟨v, hv, hvtop⟩ := hleads.among
    rcases List.mem_cons.1 hv with rfl | hv
    · exact ⟨v, hrmem, hvtop⟩
    · exact ⟨v, hv, hvtop⟩
  have htopmem := hleads.mem hroots
  refine ⟨top, if distinct (r :: rs) = [top] then t else t.hang (distinct (r :: rs)) top total, t,
    r :: rs, total, ?_, hall, hpt, hmem, hleads, htotal, rfl⟩
  cases hd : distinct (r :: rs) with
  | nil => simp [hd] at hrmem
  | cons a tail =>
    cases tail with
    | nil =>
      obtain rfl : r = a := by simpa [hd] using hrmem
      obtain rfl : top = r := by simpa [hd] using htopmem
      simp [union, hf, hfa, hd, bind, Except.bind, pure, Except.pure]
    | cons b rest =>
      rw [hd] at htop htotal
      simp [union, hf, hfa, hd, htop, htotal, bind, Except.bind, pure, Except.pure]

theorem mem_names_of_union {first top : Name} {others : List Name} (hp : p.WellFormed)
    (h : p.union first others = .ok (top, q)) : ∀ v ∈ first :: others, v ∈ p.names := by
  rw [union] at h
  obtain ⟨⟨r, s⟩, hf, h⟩ := ok_of_bind h
  obtain ⟨⟨rs, t⟩, hfa, -⟩ := ok_of_bind h
  have hall : p.findAll (first :: others) = .ok (r :: rs, t) := by simp [findAll, hf, hfa]
  exact mem_names_of_findAll hp hall

theorem union_spec (hp : p.WellFormed) {first : Name} {others : List Name}
    (hvs : ∀ v ∈ first :: others, v ∈ p.names) :
    ∃ top q, p.union first others = .ok (top, q) ∧ q.WellFormed ∧
      United p q (first :: others) top := by
  obtain ⟨top, q, t, rs, total, hok, -, ht, hmem, hleads, -, hq⟩ := union_eq hp hvs
  have hwf := ht.wellFormed hp
  have hroots := rep_self_of_mem hmem
  have htop := hleads.mem hroots
  by_cases hone : distinct rs = [top]
  · have hone' : ∀ z, (∃ v ∈ first :: others, t.Rep v z) ↔ z = top := by
      intro z
      rw [← hmem z, hone, List.mem_singleton]
    rw [if_pos hone] at hq
    rw [hq] at hok
    exact ⟨top, t, hok, hwf, (united_self hone').of_alike ht⟩
  · rw [if_neg hone] at hq
    rw [hq] at hok
    exact ⟨top, t.hang (distinct rs) top total, hok, wellFormed_hang hwf total hroots htop,
      (united_hang total hroots htop hmem).of_alike ht⟩

/-! ## Taking a name out -/

theorem least_mem (a : Name) (l : List Name) : least a l ∈ a :: l := by
  induction l generalizing a with
  | nil => simp [least]
  | cons b rest ih =>
    rw [least]
    split
    · exact List.mem_cons_of_mem _ (ih b)
    · rcases List.mem_cons.1 (ih a) with h | h
      · rw [h]
        simp
      · exact List.mem_cons_of_mem _ (List.mem_cons_of_mem _ h)

/-- What ways up there are when `v` has left the region of `old` and the others of
    that region, `rest`, hang below one of them. -/
theorem path_of_detached {parents : Table Name Name} {old new : Name} {rest : List Name}
    (hv : p.Rep v old) (hrest : ∀ x, x ∈ rest ↔ x ≠ v ∧ p.Rep x old)
    (hnew : rest ≠ [] → new ∈ rest)
    (hget : ∀ k, parents.get? k =
      if k ∈ rest then some new else if v = k then some v else p.parents.get? k)
    {x y : Name} {l : List Name} (h : Path parents x l y) :
    (x = v ∧ l = [] ∧ y = v) ∨
      (x ≠ v ∧ p.Rep x old ∧ y = new ∧ l = if x = new then [] else [x]) ∨
      (x ≠ v ∧ Path p.parents x l y ∧ y ≠ old) := by
  induction h with
  | @root y h =>
    rw [hget] at h
    by_cases hy : y ∈ rest
    · rw [if_pos hy] at h
      obtain rfl := Option.some.inj h
      obtain ⟨hyv, hyr⟩ := (hrest new).1 hy
      exact .inr (.inl ⟨hyv, hyr, rfl, by simp⟩)
    · rw [if_neg hy] at h
      by_cases hyv : v = y
      · exact .inl ⟨hyv.symm, rfl, hyv.symm⟩
      · rw [if_neg hyv] at h
        refine .inr (.inr ⟨Ne.symm hyv, .root h, ?_⟩)
        rintro rfl
        exact hy ((hrest y).2 ⟨Ne.symm hyv, [], .root h⟩)
  | @step x w y l h hxw _ ih =>
    rw [hget] at h
    by_cases hx : x ∈ rest
    · rw [if_pos hx] at h
      obtain rfl := Option.some.inj h
      obtain ⟨hxv, hxr⟩ := (hrest x).1 hx
      obtain ⟨hnv, hnr⟩ := (hrest new).1 (hnew (List.ne_nil_of_mem hx))
      rcases ih with ⟨hw, -⟩ | ⟨-, -, rfl, rfl⟩ | ⟨-, hwy, hy⟩
      · exact absurd hw hnv
      · exact .inr (.inl ⟨hxv, hxr, rfl, by simp [Ne.symm hxw]⟩)
      · exact absurd (Rep.unique ⟨l, hwy⟩ hnr) hy
    · rw [if_neg hx] at h
      by_cases hxv : v = x
      · rw [if_pos hxv] at h
        exact absurd ((Option.some.inj h).symm.trans hxv) hxw
      · -- the way up from `x` stays clear of the region that `v` leaves
        rw [if_neg hxv] at h
        have hxr : ¬ p.Rep x old := fun hr => hx ((hrest x).2 ⟨Ne.symm hxv, hr⟩)
        rcases ih with ⟨rfl, -⟩ | ⟨-, hwr, -⟩ | ⟨-, hwy, hy⟩
        · exact absurd (hv.step h) hxr
        · exact absurd (hwr.step h) hxr
        · exact .inr (.inr ⟨Ne.symm hxv, .step h hxw hwy, hy⟩)

/-- Where representatives go when `v` leaves the region of `old` and the others
    of that region, `rest`, are hung below one of them. -/
theorem rep_of_detached {parents : Table Name Name} (weights : Table Name Nat) {old : Name}
    {rest : List Name} (new : Name) (hv : p.Rep v old)
    (hrest : ∀ x, x ∈ rest ↔ x ≠ v ∧ p.Rep x old) (hnew : rest ≠ [] → new ∈ rest)
    (hget : ∀ k, parents.get? k =
      if k ∈ rest then some new else if v = k then some v else p.parents.get? k)
    (x y : Name) :
    (⟨parents, weights⟩ : Partition).Rep x y ↔
      (x = v ∧ y = v) ∨ (x ≠ v ∧ p.Rep x old ∧ y = new) ∨ (x ≠ v ∧ p.Rep x y ∧ y ≠ old) := by
  have hvrest : v ∉ rest := fun h => ((hrest v).1 h).1 rfl
  constructor
  · rintro ⟨l, hl⟩
    rcases path_of_detached hv hrest hnew hget hl with
      ⟨hx, -, hy⟩ | ⟨hxv, hxr, hy, -⟩ | ⟨hxv, hl, hy⟩
    · exact .inl ⟨hx, hy⟩
    · exact .inr (.inl ⟨hxv, hxr, hy⟩)
    · exact .inr (.inr ⟨hxv, ⟨l, hl⟩, hy⟩)
  · have hnewRep : ∀ x, x ∈ rest → (⟨parents, weights⟩ : Partition).Rep new new := by
      intro x hx
      exact ⟨[], .root (by rw [hget, if_pos (hnew (List.ne_nil_of_mem hx))])⟩
    rintro (⟨rfl, rfl⟩ | ⟨hxv, hxr, rfl⟩ | ⟨-, ⟨l, hl⟩, hy⟩)
    · exact ⟨[], .root (by rw [hget, if_neg hvrest, if_pos rfl])⟩
    · have hx : x ∈ rest := (hrest x).2 ⟨hxv, hxr⟩
      exact (hnewRep x hx).step (by rw [hget, if_pos hx])
    · -- names of other regions keep their parents
      have hkeep : ∀ k, p.Rep k y → parents.get? k = p.parents.get? k := by
        intro k hk
        have hk1 : k ∉ rest := fun h => hy (hk.unique ((hrest k).1 h).2)
        have hk2 : v ≠ k := by
          rintro rfl
          exact hy (hk.unique hv)
        rw [hget, if_neg hk1, if_neg hk2]
      clear hnewRep hvrest
      induction hl with
      | root h => exact ⟨[], .root (by rw [hkeep _ ⟨[], .root h⟩, h])⟩
      | step h hne hp ih =>
        refine (ih hy hkeep).step ?_
        rw [hkeep _ ⟨_, .step h hne hp⟩, h]

theorem wellFormed_of_detached {parents : Table Name Name} {weights : Table Name Nat} {old : Name}
    {rest : List Name} (new : Name) (hp : p.WellFormed) (hv : p.Rep v old)
    (hrest : ∀ x, x ∈ rest ↔ x ≠ v ∧ p.Rep x old) (hnew : rest ≠ [] → new ∈ rest)
    (hget : ∀ k, parents.get? k =
      if k ∈ rest then some new else if v = k then some v else p.parents.get? k)
    (hkeys : parents.keys = p.parents.keys)
    (hweights : ∀ r, r ∈ weights.keys ↔
      r = v ∨ (rest ≠ [] ∧ r = new) ∨ (r ≠ old ∧ r ∈ p.weights.keys)) :
    (⟨parents, weights⟩ : Partition).WellFormed := by
  have hrep := rep_of_detached weights new hv hrest hnew hget
  constructor
  · intro x hx
    have hx' : x ∈ p.names := by
      rw [names, ← hkeys]
      exact hx
    obtain ⟨r, hr⟩ := hp.rep x hx'
    by_cases hxv : x = v
    · exact ⟨v, (hrep x v).2 (.inl ⟨hxv, rfl⟩)⟩
    · by_cases hro : r = old
      · exact ⟨new, (hrep x new).2 (.inr (.inl ⟨hxv, hro ▸ hr, rfl⟩))⟩
      · exact ⟨r, (hrep x r).2 (.inr (.inr ⟨hxv, hr, hro⟩))⟩
  · intro r
    rw [hweights r, hrep r r, hp.weights r]
    constructor
    · rintro (rfl | ⟨hne, rfl⟩ | ⟨hro, hr⟩)
      · exact .inl ⟨rfl, rfl⟩
      · obtain ⟨hnv, hnr⟩ := (hrest r).1 (hnew hne)
        exact .inr (.inl ⟨hnv, hnr, rfl⟩)
      · by_cases hrv : r = v
        · exact .inl ⟨hrv, hrv⟩
        · exact .inr (.inr ⟨hrv, hr, hro⟩)
    · rintro (⟨rfl, -⟩ | ⟨hrv, hr, hrn⟩ | ⟨-, hr, hro⟩)
      · exact .inl rfl
      · exact .inr (.inl ⟨List.ne_nil_of_mem ((hrest r).2 ⟨hrv, hr⟩), hrn⟩)
      · exact .inr (.inr ⟨hro, hr⟩)

/-- `q` is `p` with `v` in a region of its own. The others of its region are
    represented by what the outcome says, and all others as before. -/
structure Parted (p q : Partition) (v : Name) (d : Detached) : Prop where
  names : q.names = p.names
  before : p.Rep v d.before
  after : ∀ new, d.after = some new → new ≠ v ∧ p.Rep new d.before
  rep : ∀ x y, q.Rep x y ↔ (x = v ∧ y = v) ∨ (x ≠ v ∧ p.Rep x d.before ∧ d.after = some y) ∨
    (x ≠ v ∧ p.Rep x y ∧ y ≠ d.before)

section Parted

variable {d : Detached}

theorem Parted.rep_self (h : Parted p q v d) {y : Name} (hy : q.Rep v y) : y = v :=
  hy.unique ((h.rep v v).2 (.inl ⟨rfl, rfl⟩))

/-- A name other than `v` goes where its old representative goes. -/
theorem Parted.rep_of_ne (h : Parted p q v d) {x : Name} (hx : x ≠ v) (y : Name) :
    q.Rep x y ↔ ∃ z, p.Rep x z ∧
      ((z = d.before ∧ d.after = some y) ∨ (z ≠ d.before ∧ y = z)) := by
  rw [h.rep]
  refine ⟨?_, ?_⟩
  · rintro (⟨hxv, -⟩ | ⟨-, hz, ha⟩ | ⟨-, hy, hne⟩)
    · exact absurd hxv hx
    · exact ⟨d.before, hz, .inl ⟨rfl, ha⟩⟩
    · exact ⟨y, hy, .inr ⟨hne, rfl⟩⟩
  · rintro ⟨z, hz, ⟨rfl, ha⟩ | ⟨hne, rfl⟩⟩
    · exact .inr (.inl ⟨hx, hz, ha⟩)
    · exact .inr (.inr ⟨hx, hz, hne⟩)

theorem Parted.not_rep (h : Parted p q v d) {x : Name} (hx : x ≠ v) : ¬ q.Rep x v := by
  intro hr
  obtain ⟨z, hz, ⟨-, ha⟩ | ⟨hne, rfl⟩⟩ := (h.rep_of_ne hx v).1 hr
  · exact (h.after v ha).1 rfl
  · exact hne (hz.self.unique h.before)

/-- Where the rest of the region goes, no other representative is. -/
theorem Parted.eq_before (h : Parted p q v d) {y : Name} (ha : d.after = some y) (hy : p.Rep y y) :
    y = d.before :=
  hy.unique (h.after y ha).2

/-- Names other than `v` share a representative exactly when they did. -/
theorem Parted.linked (h : Parted p q v d) (hq : q.WellFormed) (a b : Name) :
    (∃ y, q.Rep a y ∧ q.Rep b y) ↔
      (a = v ∧ b = v) ∨ (a ≠ v ∧ b ≠ v ∧ ∃ z, p.Rep a z ∧ p.Rep b z) := by
  refine ⟨?_, ?_⟩
  · rintro ⟨y, ha, hb⟩
    by_cases hav : a = v
    · subst hav
      obtain rfl := h.rep_self ha
      by_cases hbv : b = y
      · exact .inl ⟨rfl, hbv⟩
      · exact absurd hb (h.not_rep hbv)
    · by_cases hbv : b = v
      · subst hbv
        obtain rfl := h.rep_self hb
        exact absurd ha (h.not_rep hav)
      · refine .inr ⟨hav, hbv, ?_⟩
        obtain ⟨z, hz, hzy⟩ := (h.rep_of_ne hav y).1 ha
        obtain ⟨w, hw, hwy⟩ := (h.rep_of_ne hbv y).1 hb
        rcases hzy with ⟨rfl, hafter⟩ | ⟨hzb, rfl⟩
        · rcases hwy with ⟨rfl, -⟩ | ⟨hwb, rfl⟩
          · exact ⟨d.before, hz, hw⟩
          · exact absurd (h.eq_before hafter hw.self) hwb
        · rcases hwy with ⟨rfl, hafter⟩ | ⟨-, rfl⟩
          · exact absurd (h.eq_before hafter hz.self) hzb
          · exact ⟨y, hz, hw⟩
  · rintro (⟨rfl, rfl⟩ | ⟨hav, hbv, z, ha, hb⟩)
    · have hself : q.Rep b b := (h.rep b b).2 (.inl ⟨rfl, rfl⟩)
      exact ⟨b, hself, hself⟩
    · obtain ⟨y, hy⟩ := hq.rep a (h.names ▸ ha.mem_names)
      obtain ⟨z', hz', hyz⟩ := (h.rep_of_ne hav y).1 hy
      rw [← ha.unique hz'] at hyz
      exact ⟨y, hy, (h.rep_of_ne hbv y).2 ⟨z, hb, hyz⟩⟩

end Parted

theorem Parted.of_alike {d : Detached} (h : Parted t q v d) (ht : Alike p t) :
    Parted p q v d := by
  obtain ⟨hnames, hbefore, hafter, hrep⟩ := h
  simp only [ht.rep] at hbefore hafter hrep
  exact ⟨hnames.trans ht.names, hbefore, hafter, hrep⟩

/-- A name that is alone in its region becomes its own representative. -/
theorem parted_alone {old : Name} (hp : p.WellFormed) (hv : p.Rep v old)
    (halone : ∀ x, ¬ (x ≠ v ∧ p.Rep x old)) :
    (⟨p.parents.insert v v, (p.weights.erase old).insert v 1⟩ : Partition).WellFormed ∧
      Parted p ⟨p.parents.insert v v, (p.weights.erase old).insert v 1⟩ v ⟨old, none⟩ := by
  have hrest : ∀ x, x ∈ ([] : List Name) ↔ x ≠ v ∧ p.Rep x old :=
    fun x => iff_of_false (by simp) (halone x)
  have hkeys : (p.parents.insert v v).keys = p.parents.keys :=
    Table.keys_insert_of_mem hv.mem_names v
  -- nobody is left, so what the rest is hung below does not matter
  have hget : ∀ k, (p.parents.insert v v).get? k =
      if k ∈ ([] : List Name) then some v else if v = k then some v else p.parents.get? k := by
    intro k
    simp [Table.get?_insert]
  refine ⟨wellFormed_of_detached v hp hv hrest (by simp) hget hkeys ?_,
    hkeys, hv, by simp, ?_⟩
  · intro r
    rw [Table.mem_keys_iff, Table.get?_insert, Table.get?_erase, Table.mem_keys_iff]
    by_cases hr : v = r
    · simp [hr]
    · by_cases hro : old = r
      · simp [hr, hro, Ne.symm hr]
      · simp [hr, hro, Ne.symm hr, Ne.symm hro]
  · intro x y
    rw [rep_of_detached _ v hv hrest (by simp) hget]
    refine or_congr_right (or_congr_left (iff_of_false ?_ ?_))
    · rintro ⟨hxv, hr, -⟩
      exact halone x ⟨hxv, hr⟩
    · rintro ⟨-, -, h⟩
      cases h

/-- The rest of the region of a name is hung below one of its members. -/
theorem parted_rest {old new : Name} {rest : List Name} (hp : p.WellFormed) (hv : p.Rep v old)
    (hrest : ∀ x, x ∈ rest ↔ x ≠ v ∧ p.Rep x old) (hnew : new ∈ rest) (n : Nat) :
    (⟨rest.foldl (fun t u => t.insert u new) (p.parents.insert v v),
        ((p.weights.erase old).insert v 1).insert new n⟩ : Partition).WellFormed ∧
      Parted p ⟨rest.foldl (fun t u => t.insert u new) (p.parents.insert v v),
        ((p.weights.erase old).insert v 1).insert new n⟩ v ⟨old, some new⟩ := by
  have hget : ∀ k, (rest.foldl (fun t u => t.insert u new) (p.parents.insert v v)).get? k =
      if k ∈ rest then some new else if v = k then some v else p.parents.get? k := by
    intro k
    rw [Table.get?_foldl_insert, Table.get?_insert]
  have hkeys : (rest.foldl (fun t u => t.insert u new) (p.parents.insert v v)).keys =
      p.parents.keys := by
    have hself : (p.parents.insert v v).keys = p.parents.keys :=
      Table.keys_insert_of_mem hv.mem_names v
    rw [Table.keys_foldl_insert, hself]
    intro k hk
    rw [hself]
    exact ((hrest k).1 hk).2.mem_names
  refine ⟨wellFormed_of_detached new hp hv hrest (fun _ => hnew) hget hkeys ?_,
    hkeys, hv, ?_, ?_⟩
  · intro r
    have hne : rest ≠ [] := List.ne_nil_of_mem hnew
    rw [Table.mem_keys_iff, Table.get?_insert, Table.get?_insert, Table.get?_erase,
      Table.mem_keys_iff]
    by_cases hrn : new = r
    · simp [hrn, hne]
    · by_cases hr : v = r
      · simp [hrn, hr]
      · by_cases hro : old = r
        · simp [hrn, hr, hro, Ne.symm hr, Ne.symm hrn]
        · simp [hrn, hr, hro, Ne.symm hr, Ne.symm hro, Ne.symm hrn]
  · intro new' h
    obtain rfl := Option.some.inj h
    exact (hrest new).1 hnew
  · intro x y
    rw [rep_of_detached _ new hv hrest (fun _ => hnew) hget, Option.some.injEq,
      eq_comm (a := y) (b := new)]

/-- Detaching a name lists the others of its region and hangs them below one of
    them, if there are any. -/
theorem detach_eq (hp : p.WellFormed) (hv : v ∈ p.names) :
    ∃ (q t : Partition) (old : Name) (rest : List Name), p.find v = .ok (old, q) ∧
      q.membersOf old (q.names.filter (· ≠ v)) = .ok (rest, t) ∧ Alike p t ∧ t.Rep v old ∧
      rest.Nodup ∧ (∀ x, x ∈ rest ↔ x ≠ v ∧ t.Rep x old) ∧
      ((rest = [] ∧ p.detach v =
          .ok (⟨old, none⟩, ⟨t.parents.insert v v, (t.weights.erase old).insert v 1⟩)) ∨
        ∃ new ∈ rest,
          (∀ a others, rest = a :: others → new = if old = v then least a others else old) ∧
          p.detach v = .ok (⟨old, some new⟩,
            ⟨rest.foldl (fun t u => t.insert u new) (t.parents.insert v v),
              ((t.weights.erase old).insert v 1).insert new rest.length⟩)) := by
  obtain ⟨old, q, hf, hold, hq⟩ := find_spec hp hv
  have hnames : ∀ x ∈ q.names.filter (· ≠ v), x ∈ q.names := fun x hx => (List.mem_filter.1 hx).1
  obtain ⟨rest, t, hm, ht, hsub, hmembers⟩ := membersOf_spec (r := old) (hq.wellFormed hp) hnames
  have hpt : Alike p t := hq.trans ht
  have hvold : t.Rep v old := (hpt.rep v old).2 hold
  have hnodup : rest.Nodup := by
    have hall : q.names.Nodup := q.parents.nodup
    exact (hall.filter _).sublist hsub
  have hrest : ∀ x, x ∈ rest ↔ x ≠ v ∧ t.Rep x old := by
    intro x
    rw [hmembers, hq.rep, hpt.rep, List.mem_filter, decide_eq_true_eq, hq.names]
    exact ⟨fun h => ⟨h.1.2, h.2⟩, fun h => ⟨⟨h.2.mem_names, h.1⟩, h.2⟩⟩
  obtain ⟨n, hn, -⟩ := weight_spec (hpt.wellFormed hp) hvold.self
  refine ⟨q, t, old, rest, hf, hm, hpt, hvold, hnodup, hrest, ?_⟩
  cases rest with
  | nil =>
    refine .inl ⟨rfl, ?_⟩
    rw [detach, hf]
    simp only [bind, Except.bind, hm, hn, pure, Except.pure]
  | cons a others =>
    -- the rest keeps its representative unless that was `v`
    have hnew : (if old = v then least a others else old) ∈ a :: others := by
      split
      · exact least_mem a others
      · rename_i h
        exact (hrest old).2 ⟨h, hvold.self⟩
    refine .inr ⟨_, hnew, ?_, ?_⟩
    · intro a' others' heq
      obtain ⟨rfl, rfl⟩ := List.cons.inj heq
      rfl
    rw [detach, hf]
    simp only [bind, Except.bind, hm, hn, pure, Except.pure]

theorem mem_names_of_detach {d : Detached} (hp : p.WellFormed) (h : p.detach v = .ok (d, q)) :
    v ∈ p.names := by
  rw [detach] at h
  obtain ⟨x, hf, -⟩ := ok_of_bind h
  exact (find_ok hp hf).1.mem_names

theorem detach_spec (hp : p.WellFormed) (hv : v ∈ p.names) :
    ∃ d q, p.detach v = .ok (d, q) ∧ q.WellFormed ∧ Parted p q v d := by
  obtain ⟨-, t, old, rest, -, -, ht, hvold, -, hrest, hcases⟩ := detach_eq hp hv
  have hwf := ht.wellFormed hp
  rcases hcases with ⟨rfl, hok⟩ | ⟨new, hnew, -, hok⟩
  · have halone : ∀ x, ¬ (x ≠ v ∧ t.Rep x old) := fun x hx => absurd ((hrest x).2 hx) (by simp)
    obtain ⟨hqwf, hparted⟩ := parted_alone hwf hvold halone
    exact ⟨_, _, hok, hqwf, hparted.of_alike ht⟩
  · obtain ⟨hqwf, hparted⟩ := parted_rest hwf hvold hrest hnew rest.length
    exact ⟨_, _, hok, hqwf, hparted.of_alike ht⟩

/-! ## Regions and their members -/

/-- The names of a list stand with those of their region, under the
    representative. -/
structure Grouped (p : Partition) (done : List Name) (groups : Table Name (List Name)) :
    Prop where
  nodup : ∀ {r ms}, groups.get? r = some ms → ms.Nodup
  nonempty : ∀ {r ms}, groups.get? r = some ms → ms ≠ []
  mem_iff : ∀ {r ms}, groups.get? r = some ms → ∀ x, x ∈ ms ↔ x ∈ done ∧ p.Rep x r
  keys : ∀ {x r}, x ∈ done → p.Rep x r → r ∈ groups.keys

theorem Grouped.of_alike {done : List Name} {groups : Table Name (List Name)}
    (h : Grouped q done groups) (hq : Alike p q) : Grouped p done groups where
  nodup := h.nodup
  nonempty := h.nonempty
  mem_iff hms x := by rw [h.mem_iff hms, hq.rep]
  keys hx hr := h.keys hx ((hq.rep _ _).2 hr)

/-- The members so far of any region, also of one that has no entry yet. -/
theorem Grouped.mem_getD {done : List Name} {groups : Table Name (List Name)}
    (h : Grouped p done groups) (r x : Name) :
    x ∈ (groups.get? r).getD [] ↔ x ∈ done ∧ p.Rep x r := by
  cases hg : groups.get? r with
  | none =>
    refine iff_of_false (by simp) ?_
    rintro ⟨hx, hxr⟩
    have hmem := h.keys hx hxr
    rw [Table.mem_keys_iff, hg] at hmem
    cases hmem
  | some ms => exact h.mem_iff hg x

/-- One more name joins the members of its region. -/
theorem Grouped.add {done : List Name} {groups : Table Name (List Name)}
    (h : Grouped p done groups) (hv : v ∉ done) (hr : p.Rep v r) :
    Grouped p (done ++ [v]) (groups.insert r ((groups.get? r).getD [] ++ [v])) := by
  have hnodup : ((groups.get? r).getD [] ++ [v]).Nodup := by
    have hold : ((groups.get? r).getD []).Nodup := by
      cases hg : groups.get? r with
      | none => exact List.nodup_nil
      | some ms => exact h.nodup hg
    rw [List.nodup_append]
    refine ⟨hold, by simp, ?_⟩
    rintro x hx y hy rfl
    rw [List.mem_singleton.1 hy] at hx
    exact hv ((h.mem_getD r v).1 hx).1
  have hmem : ∀ x z, x ∈ done ++ [v] ∧ p.Rep x z ↔ (x ∈ done ∧ p.Rep x z) ∨ (x = v ∧ z = r) := by
    intro x z
    rw [List.mem_append, List.mem_singleton, or_and_right]
    refine or_congr_right (and_congr_right ?_)
    rintro rfl
    exact ⟨fun hz => hz.unique hr, fun hz => hz ▸ hr⟩
  refine ⟨?_, ?_, ?_, ?_⟩
  · intro z ms hz
    rw [Table.get?_insert] at hz
    split at hz
    · exact Option.some.inj hz ▸ hnodup
    · exact h.nodup hz
  · intro z ms hz
    rw [Table.get?_insert] at hz
    split at hz
    · exact Option.some.inj hz ▸ by simp
    · exact h.nonempty hz
  · intro z ms hz x
    rw [Table.get?_insert] at hz
    rw [hmem]
    split at hz
    · rename_i hrz
      subst hrz
      rw [← Option.some.inj hz, List.mem_append, List.mem_singleton, h.mem_getD]
      simp
    · rename_i hrz
      rw [h.mem_iff hz]
      simp [Ne.symm hrz]
  · intro x z hx hz
    rw [Table.mem_keys_iff, Table.get?_insert]
    rcases (hmem x z).1 ⟨hx, hz⟩ with ⟨hx, hz⟩ | ⟨-, rfl⟩
    · have hkey := h.keys hx hz
      rw [Table.mem_keys_iff] at hkey
      split
      · rfl
      · exact hkey
    · rw [if_pos rfl]
      rfl

/-- The regions of the names up to some point, and then of all of them. -/
theorem classesOf_spec {groups : Table Name (List Name)} {done vs : List Name}
    (hp : p.WellFormed) (hvs : ∀ v ∈ vs, v ∈ p.names) (hnodup : (done ++ vs).Nodup)
    (hgroups : Grouped p done groups) :
    ∃ out q, p.classesOf groups vs = .ok (out, q) ∧ Alike p q ∧ Grouped p (done ++ vs) out := by
  induction vs generalizing p groups done with
  | nil =>
    rw [List.append_nil]
    exact ⟨groups, p, rfl, Alike.refl p, hgroups⟩
  | cons v vs ih =>
    obtain ⟨r, q, hf, hr, hq⟩ := find_spec hp (hvs v (by simp))
    have hsplit : done ++ v :: vs = (done ++ [v]) ++ vs := by simp
    have hv : v ∉ done := fun hmem => (List.disjoint_of_nodup_append hnodup) hmem (by simp)
    have hvs' : ∀ u ∈ vs, u ∈ q.names := by
      intro u hu
      rw [hq.names]
      exact hvs u (List.mem_cons_of_mem _ hu)
    rw [hsplit] at hnodup ⊢
    obtain ⟨out, t, hout, ht, hall⟩ :=
      ih (hq.wellFormed hp) hvs' hnodup ((hgroups.add hv hr).of_alike hq.symm)
    exact ⟨out, t, by simp [classesOf, hf, hout], hq.trans ht, hall.of_alike hq⟩

/-- `classes` lists every region once, under its representative, with all its
    members. -/
theorem classes_spec (hp : p.WellFormed) :
    ∃ groups q, p.classes = .ok (groups, q) ∧ Alike p q ∧
      (∀ r ms, groups.get? r = some ms → ms.Nodup ∧ ms ≠ [] ∧ ∀ x, x ∈ ms ↔ p.Rep x r) ∧
      ∀ x r, p.Rep x r → r ∈ groups.keys := by
  have hnone : Grouped p [] {} := by
    refine ⟨?_, ?_, ?_, ?_⟩
    · intro r ms h
      cases h
    · intro r ms h
      cases h
    · intro r ms h
      cases h
    · intro x r hx
      cases hx
  obtain ⟨groups, q, hok, hq, hgroups⟩ := classesOf_spec hp (fun v hv => hv) p.parents.nodup hnone
  refine ⟨groups, q, hok, hq, ?_, fun x r hr => hgroups.keys hr.mem_names hr⟩
  intro r ms h
  refine ⟨hgroups.nodup h, hgroups.nonempty h, ?_⟩
  intro x
  rw [hgroups.mem_iff h]
  exact ⟨fun hx => hx.2, fun hx => ⟨hx.mem_names, hx⟩⟩

end Partition
end Sendability
