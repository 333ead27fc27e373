/-
  How the tables of a state fit together.

  A state keeps its regions in three tables: the parents of the names, the
  weights of the representatives and the records of the regions that were
  transferred. `Regions.Consistent` says what they promise each other, and
  `tables_consistent` that they keep the promise after any changes, so that no
  look-up of a tracked name can fail.

  That a partition is well formed already says which names have a weight. What
  is added here is that a weight counts the members of its region (`Weighed`).
  Shorter paths change no region, so the argument is about the two changes that
  regroup names, `hang` and `detach`.
-/

import Mathlib.Data.Set.Card
import Sendability.Proofs.Congruence

namespace Sendability

-- ============================================================================
-- Weights
-- ============================================================================

namespace Partition

/-- The members of the region that `r` represents. -/
def region (p : Partition) (r : Name) : Set Name := {v | p.Rep v r}

/-- Every weight is the number of members of its region. -/
def Weighed (p : Partition) : Prop :=
  ∀ r n, p.weights.get? r = some n → (p.region r).encard = n

variable {p q : Partition} {v r : Name}

theorem mem_region : v ∈ p.region r ↔ p.Rep v r := Iff.rfl

theorem region_congr (h : ∀ x, q.Rep x r ↔ p.Rep x r) : q.region r = p.region r := Set.ext h

theorem weighed_empty : Weighed empty := by
  intro r n h
  cases h

theorem Alike.weighed (h : Alike p q) (hp : p.Weighed) : q.Weighed := by
  intro r n hr
  rw [h.weights] at hr
  rw [region_congr fun x => h.rep x r]
  exact hp r n hr

/-- A new name weighs one. -/
theorem weighed_add (hp : p.WellFormed) (hw : p.Weighed) (v : Name) : (p.add v).Weighed := by
  by_cases hv : v ∈ p.names
  · have hc : p.contains v = true := (Table.contains_iff _ _).2 hv
    rw [add, if_pos hc]
    exact hw
  · have hrep := rep_add hp hv
    have hc : ¬ p.contains v = true := fun h => hv ((Table.contains_iff _ _).1 h)
    intro r n hr
    rw [add, if_neg hc, Table.get?_insert] at hr
    by_cases hvr : v = r
    · -- the new name is alone in its region
      rw [if_pos hvr] at hr
      have hone : (p.add v).region r = {v} := by
        ext x
        rw [mem_region, hrep, Set.mem_singleton_iff]
        constructor
        · rintro (h | h)
          · exact absurd (hvr ▸ h.self.mem_names) hv
          · exact h.1
        · intro h
          exact .inr ⟨h, hvr.symm⟩
      rw [hone, Set.encard_singleton, ← Option.some.inj hr]
      rfl
    · rw [if_neg hvr] at hr
      rw [region_congr (p := p), hw r n hr]
      intro x
      rw [hrep]
      constructor
      · rintro (h | h)
        · exact h
        · exact absurd h.2.symm hvr
      · exact .inl

theorem weighed_foldl_add (hp : p.WellFormed) (hw : p.Weighed) (vs : List Name) :
    (vs.foldl add p).WellFormed ∧ (vs.foldl add p).Weighed := by
  induction vs generalizing p with
  | nil => exact ⟨hp, hw⟩
  | cons v vs ih => exact ih (wellFormed_add hp v) (weighed_add hp hw v)

-- ============================================================================
-- Uniting
-- ============================================================================

/-- The total weight of some representatives is the number of members that their
    regions have together. -/
theorem encard_of_totalWeight (hw : p.Weighed) {roots : List Name} (hnodup : roots.Nodup) {n : Nat}
    (h : p.totalWeight roots = .ok n) : {v | ∃ r ∈ roots, p.Rep v r}.encard = n := by
  induction roots generalizing n with
  | nil =>
    have hnone : {v | ∃ r ∈ ([] : List Name), p.Rep v r} = ∅ := by simp
    obtain rfl := Except.ok.inj h
    rw [hnone, Set.encard_empty]
    rfl
  | cons r rest ih =>
    rw [List.nodup_cons] at hnodup
    rw [totalWeight] at h
    obtain ⟨w, hwr, h⟩ := ok_of_bind h
    obtain ⟨m, hm, h⟩ := ok_of_bind h
    obtain rfl : w + m = n := Except.ok.inj h
    have hget : p.weights.get? r = some w := weight_eq_ok_iff.1 hwr
    have hsplit : {v | ∃ z ∈ r :: rest, p.Rep v z} = p.region r ∪ {v | ∃ z ∈ rest, p.Rep v z} := by
      ext x
      simp only [List.mem_cons, exists_eq_or_imp]
      rfl
    have hdisjoint : Disjoint (p.region r) {v | ∃ z ∈ rest, p.Rep v z} := by
      rw [Set.disjoint_left]
      rintro x hx ⟨z, hz, hxz⟩
      exact hnodup.1 (hx.unique hxz ▸ hz)
    rw [hsplit, Set.encard_union_eq hdisjoint, hw r w hget, ih hnodup.2 hm, Nat.cast_add]

/-- Roots that are hung below one of them give it their weights. -/
theorem weighed_hang (hw : p.Weighed) {roots : List Name} {top : Name} {total : Nat}
    (hroots : ∀ x ∈ roots, p.Rep x x) (htop : top ∈ roots) (hnodup : roots.Nodup)
    (htotal : p.totalWeight roots = .ok total) : (p.hang roots top total).Weighed := by
  have hrep := rep_hang total hroots htop
  intro r n hr
  rw [get?_weights_hang] at hr
  by_cases htr : top = r
  · rw [if_pos htr] at hr
    obtain rfl : total = n := Option.some.inj hr
    have hall : (p.hang roots top total).region r = {v | ∃ z ∈ roots, p.Rep v z} := by
      ext x
      rw [mem_region, hrep]
      constructor
      · rintro ⟨z, hz, hrz⟩
        by_cases hzr : z ∈ roots
        · exact ⟨z, hzr, hz⟩
        · rw [if_neg hzr] at hrz
          exact absurd (hrz ▸ htr ▸ htop) hzr
      · rintro ⟨z, hzr, hz⟩
        refine ⟨z, hz, ?_⟩
        rw [if_pos hzr, htr]
    rw [hall, encard_of_totalWeight hw hnodup htotal]
  · rw [if_neg htr] at hr
    by_cases hmem : r ∈ roots
    · rw [if_pos hmem] at hr
      cases hr
    · rw [if_neg hmem] at hr
      rw [region_congr (p := p), hw r n hr]
      intro x
      rw [hrep]
      constructor
      · rintro ⟨z, hz, hrz⟩
        by_cases hzr : z ∈ roots
        · rw [if_pos hzr] at hrz
          exact absurd hrz.symm htr
        · rw [if_neg hzr] at hrz
          exact hrz ▸ hz
      · intro hx
        refine ⟨r, hx, ?_⟩
        rw [if_neg hmem]

/-- A union keeps the weights right. -/
theorem weighed_union (hp : p.WellFormed) (hw : p.Weighed) {first top : Name} {others : List Name}
    (h : p.union first others = .ok (top, q)) : q.WellFormed ∧ q.Weighed := by
  have hvs := mem_names_of_union hp h
  obtain ⟨top', q', hok, hwf, -⟩ := union_spec hp hvs
  obtain ⟨-, rfl⟩ := Prod.mk.inj (Except.ok.inj (hok.symm.trans h))
  refine ⟨hwf, ?_⟩
  obtain ⟨top₁, q₁, t, rs, total, hok₁, -, ht, hmem, hleads, htotal, hq⟩ := union_eq hp hvs
  obtain ⟨-, rfl⟩ := Prod.mk.inj (Except.ok.inj (hok₁.symm.trans h))
  have htw := ht.weighed hw
  have hroots := rep_self_of_mem hmem
  rw [hq]
  split
  · exact htw
  · exact weighed_hang htw hroots (hleads.mem hroots) (nodup_distinct _) htotal

-- ============================================================================
-- Taking a name out
-- ============================================================================

theorem encard_of_nodup {l : List Name} (h : l.Nodup) : {v | v ∈ l}.encard = l.length := by
  rw [← List.coe_toFinset, Set.encard_coe_eq_coe_finsetCard, List.toFinset_card_of_nodup h]

/-- After a name was detached it is alone, the rest of its region is counted
    anew, and all other regions are what they were. -/
theorem Parted.weighed {d : Detached} (h : Parted p q v d) (hw : p.Weighed)
    (hweight : ∀ r n, q.weights.get? r = some n →
      (r = v ∧ n = 1) ∨ (r ≠ v ∧ d.after = some r ∧ {x | x ≠ v ∧ p.Rep x d.before}.encard = n) ∨
        (r ≠ v ∧ d.after ≠ some r ∧ r ≠ d.before ∧ p.weights.get? r = some n)) : q.Weighed := by
  intro r n hr
  rcases hweight r n hr with ⟨rfl, rfl⟩ | ⟨hrv, ha, hn⟩ | ⟨hrv, ha, hrb, hn⟩
  · have hone : q.region r = {r} := by
      ext x
      rw [mem_region, Set.mem_singleton_iff]
      constructor
      · intro hx
        by_contra hxr
        exact h.not_rep hxr hx
      · intro hx
        exact (h.rep x r).2 (.inl ⟨hx, rfl⟩)
    rw [hone, Set.encard_singleton]
    rfl
  · have hrest : q.region r = {x | x ≠ v ∧ p.Rep x d.before} := by
      ext x
      rw [mem_region, h.rep]
      constructor
      · rintro (⟨-, hrv'⟩ | ⟨hxv, hx, -⟩ | ⟨-, hx, hne⟩)
        · exact absurd hrv' hrv
        · exact ⟨hxv, hx⟩
        · exact absurd (h.eq_before ha hx.self) hne
      · rintro ⟨hxv, hx⟩
        exact .inr (.inl ⟨hxv, hx, ha⟩)
    rw [hrest, hn]
  · rw [region_congr (p := p), hw r n hn]
    intro x
    rw [h.rep]
    constructor
    · rintro (⟨-, hrv'⟩ | ⟨-, -, ha'⟩ | ⟨-, hx, -⟩)
      · exact absurd hrv' hrv
      · exact absurd ha' ha
      · exact hx
    · intro hx
      refine .inr (.inr ⟨?_, hx, hrb⟩)
      rintro rfl
      exact hrb (hx.unique h.before)

/-- Taking a name out makes its region lighter by one. -/
theorem weighed_detach (hp : p.WellFormed) (hw : p.Weighed) {d : Detached}
    (h : p.detach v = .ok (d, q)) (hv : v ∈ p.names) : q.Weighed := by
  obtain ⟨d', q', hok, -, hparted⟩ := detach_spec hp hv
  obtain ⟨rfl, rfl⟩ := Prod.mk.inj (Except.ok.inj (hok.symm.trans h))
  obtain ⟨-, t, old, rest, -, -, ht, -, hnodup, hrest, hcases⟩ := detach_eq hp hv
  apply hparted.weighed hw
  intro r n hr
  rcases hcases with ⟨-, hok'⟩ | ⟨new, hnew, -, hok'⟩
  · obtain ⟨rfl, rfl⟩ := Prod.mk.inj (Except.ok.inj (hok'.symm.trans h))
    rw [Table.get?_insert, Table.get?_erase, ht.weights] at hr
    by_cases hrv : v = r
    · rw [if_pos hrv] at hr
      exact .inl ⟨hrv.symm, (Option.some.inj hr).symm⟩
    · rw [if_neg hrv] at hr
      by_cases hro : old = r
      · rw [if_pos hro] at hr
        cases hr
      · rw [if_neg hro] at hr
        exact .inr (.inr ⟨Ne.symm hrv, by simp, Ne.symm hro, hr⟩)
  · obtain ⟨rfl, rfl⟩ := Prod.mk.inj (Except.ok.inj (hok'.symm.trans h))
    have hnv : new ≠ v := ((hrest new).1 hnew).1
    rw [Table.get?_insert, Table.get?_insert, Table.get?_erase, ht.weights] at hr
    by_cases hrn : new = r
    · subst hrn
      rw [if_pos rfl] at hr
      have hset : {x | x ≠ v ∧ p.Rep x old} = {x | x ∈ rest} := by
        ext x
        rw [Set.mem_ofPred_eq, Set.mem_ofPred_eq, hrest, ht.rep]
      refine .inr (.inl ⟨hnv, rfl, ?_⟩)
      rw [hset, encard_of_nodup hnodup, Option.some.inj hr]
    · rw [if_neg hrn] at hr
      by_cases hrv : v = r
      · rw [if_pos hrv] at hr
        exact .inl ⟨hrv.symm, (Option.some.inj hr).symm⟩
      · rw [if_neg hrv] at hr
        by_cases hro : old = r
        · rw [if_pos hro] at hr
          cases hr
        · rw [if_neg hro] at hr
          refine .inr (.inr ⟨Ne.symm hrv, ?_, Ne.symm hro, hr⟩)
          intro h
          exact hrn (Option.some.inj h)

-- ============================================================================
-- Joining
-- ============================================================================

/-- Imposing one partition on another keeps the weights right. -/
theorem weighed_impose {vs : List Name} (hp : p.WellFormed) (hw : p.Weighed) (hq : q.WellFormed)
    {p' : Partition} (h : p.impose q vs = .ok p') : p'.WellFormed ∧ p'.Weighed := by
  induction vs generalizing p q with
  | nil =>
    obtain rfl := Except.ok.inj h
    exact ⟨hp, hw⟩
  | cons v vs ih =>
    obtain ⟨⟨r, q'⟩, hf, h⟩ := ok_of_bind h
    have hq' := (find_ok hq hf).2.wellFormed hq
    by_cases hrv : r = v
    · simp only [hrv, if_true] at h
      exact ih hp hw hq' h
    · simp only [hrv, if_false] at h
      obtain ⟨⟨top, u⟩, hu, h⟩ := ok_of_bind h
      obtain ⟨huwf, huw⟩ := weighed_union hp hw hu
      exact ih huwf huw hq' h

end Partition

-- ============================================================================
-- States
-- ============================================================================

namespace Regions

variable {P : Site → Prop} {s t : Regions} {v : Name}

theorem find_ok (hs : s.partition.WellFormed) {r : Name} (h : s.find v = .ok (r, t)) :
    s.partition.Rep v r ∧ Alike s t := by
  rw [find] at h
  split at h
  · cases h
  · rename_i hf
    obtain ⟨rfl, rfl⟩ := Prod.mk.inj (Except.ok.inj h)
    obtain ⟨hr, hq⟩ := Partition.find_ok hs hf
    exact ⟨hr, hq, rfl⟩

/-- Records are carried over without a change of the regions. -/
theorem carryRecords_alike (hs : s.partition.WellFormed) {l : List (Name × Record)}
    (h : s.carryRecords l = .ok t) : s.partition.Alike t.partition := by
  induction l generalizing s with
  | nil =>
    obtain rfl := Except.ok.inj h
    exact Partition.Alike.refl _
  | cons e l ih =>
    obtain ⟨v, rec⟩ := e
    rw [carryRecords] at h
    split at h
    · obtain ⟨⟨r, u⟩, hf, h⟩ := ok_of_bind h
      have hu := (find_ok hs hf).2.partition
      have hrest := ih (s := u.put r ((u.recordAt r).merge rec)) (hu.wellFormed hs) h
      exact hu.trans hrest
    · exact ih hs h

/-- A join carries the records of both states into regions of its own. -/
theorem join_eq (hs : s.partition.WellFormed) (ht : t.partition.WellFormed) {u : Regions}
    (h : s.join t = .ok u) : ∃ q : Partition, q.WellFormed ∧ q.Weighed ∧
      (⟨q, {}⟩ : Regions).carryRecords (s.records.entries ++ t.records.entries) = .ok u := by
  obtain ⟨p, hp, h⟩ := ok_of_bind h
  obtain ⟨q, hq, h⟩ := ok_of_bind h
  obtain ⟨hbase, hbasew⟩ := Partition.weighed_foldl_add Partition.wellFormed_empty
    Partition.weighed_empty (s.names ++ t.names)
  obtain ⟨hpwf, hpw⟩ := Partition.weighed_impose hbase hbasew hs hp
  obtain ⟨hqwf, hqw⟩ := Partition.weighed_impose hpwf hpw ht hq
  exact ⟨q, hqwf, hqw, h⟩

theorem weighed_join (hs : s.partition.WellFormed) (ht : t.partition.WellFormed) {u : Regions}
    (h : s.join t = .ok u) : u.partition.Weighed := by
  obtain ⟨q, hqwf, hqw, hcarry⟩ := join_eq hs ht h
  have hqu : q.Alike u.partition := carryRecords_alike (s := ⟨q, {}⟩) hqwf hcarry
  exact hqu.weighed hqw

/-- Whatever way a state was built, its weights count. -/
theorem Built.weighed (hP : Site.Closed P) (h : s.Built P) : s.partition.Weighed := by
  induction h with
  | empty => exact Partition.weighed_empty
  | track v hs ih => exact Partition.weighed_add (hs.wellFormed hP).partition ih v
  | find hs hok ih => exact (find_ok (hs.wellFormed hP).partition hok).2.partition.weighed ih
  | @redefine s t v hs hok ih =>
    have hwf := (hs.wellFormed hP).partition
    rw [Regions.redefine] at hok
    split at hok
    · rename_i hv
      obtain ⟨⟨d, q⟩, hd, hok⟩ := ok_of_bind hok
      have hq := Partition.weighed_detach hwf ih hd (isTracked_iff.1 hv)
      -- whatever becomes of the record, the partition is the detached one
      simp only at hok
      split at hok
      · obtain rfl := Except.ok.inj hok
        exact hq
      · obtain rfl := Except.ok.inj hok
        exact hq
    · obtain rfl := Except.ok.inj hok
      exact Partition.weighed_add hwf ih v
  | @union s t first top others hs hok ih =>
    have hwf := (hs.wellFormed hP).partition
    obtain ⟨⟨olds, p⟩, hfa, hok⟩ := ok_of_bind hok
    obtain ⟨⟨root, q⟩, hun, hok⟩ := ok_of_bind hok
    have hp : s.partition.Alike p := by
      obtain ⟨rs, p', hfa', hp', -⟩ :=
        Partition.findAll_spec hwf (Partition.mem_names_of_findAll hwf hfa)
      obtain ⟨-, rfl⟩ := Prod.mk.inj (Except.ok.inj (hfa'.symm.trans hfa))
      exact hp'
    have hq := (Partition.weighed_union (hp.wellFormed hwf) (hp.weighed ih) hun).2
    simp only at hok
    split at hok
    · obtain ⟨-, rfl⟩ := Prod.mk.inj (Except.ok.inj hok)
      exact hq
    · obtain ⟨-, rfl⟩ := Prod.mk.inj (Except.ok.inj hok)
      exact hq
  | mark hs _ hok ih =>
    obtain ⟨⟨r, u⟩, hf, hok⟩ := ok_of_bind hok
    obtain rfl := Except.ok.inj hok
    exact (find_ok (hs.wellFormed hP).partition hf).2.partition.weighed ih
  | join hs ht hok _ _ =>
    exact weighed_join (hs.wellFormed hP).partition (ht.wellFormed hP).partition hok

-- ============================================================================
-- The tables together
-- ============================================================================

/-- The tables of a state fit together: parents are tracked and lead to a root,
    exactly the roots have a weight, which counts the members below, and the
    records stand under roots, with their sites in strict program order. -/
structure Consistent (s : Regions) : Prop where
  parent : ∀ v u, s.partition.parents.get? v = some u → u ∈ s.names
  chain : ∀ v ∈ s.names, ∃ path root, Partition.Path s.partition.parents v path root
  weighed : ∀ r, r ∈ s.partition.weights.keys ↔ s.partition.parents.get? r = some r
  weight : ∀ r n, s.partition.weights.get? r = some n → (s.partition.region r).encard = n
  record : ∀ r ∈ s.records.keys, s.partition.parents.get? r = some r
  nonempty : ∀ r rec, s.records.get? r = some rec → rec.sites ≠ []
  ordered : ∀ r rec, s.records.get? r = some rec →
    rec.sites.Pairwise fun x y => x.point.Before y.point
  single : ∀ r rec, s.records.get? r = some rec →
    ∀ x ∈ rec.sites, ∀ y ∈ rec.sites, x.point.key = y.point.key → x = y

/-- A well-formed state with right weights is consistent. -/
theorem consistent_of_wellFormed (hs : s.WellFormed P) (hw : s.partition.Weighed) :
    s.Consistent where
  parent := by
    intro v u h
    have hv : v ∈ s.partition.names := by
      rw [Partition.names, Table.mem_keys_iff, h]
      rfl
    obtain ⟨r, hr⟩ := hs.partition.rep v hv
    exact (hr.of_parent h).mem_names
  chain := by
    intro v hv
    obtain ⟨r, path, hpath⟩ := hs.partition.rep v hv
    exact ⟨path, r, hpath⟩
  weighed := by
    intro r
    rw [hs.partition.weights, Partition.rep_self_iff]
  weight := hw
  record := by
    intro r hr
    rw [Table.mem_keys_iff, Option.isSome_iff_exists] at hr
    obtain ⟨rec, hrec⟩ := hr
    exact Partition.rep_self_iff.1 (hs.records r rec hrec).1
  nonempty := fun r rec h => (hs.records r rec h).2.nonempty
  ordered := fun r rec h => (hs.records r rec h).2.proper.strict
  single := fun r rec h x hx y hy => (hs.records r rec h).2.proper.eq_of_key hx hy

/-- The tables of every state that changes lead to are consistent. So a look-up
    of a tracked name ends at the root of its chain, and no change of tracked
    names fails. -/
theorem tables_consistent (h : s.Built fun _ => True) :
    s.Consistent ∧
      (∀ v ∈ s.names, ∃ path root t, Partition.Path s.partition.parents v path root ∧
        s.find v = .ok (root, t)) ∧
      (∀ first others, (∀ v ∈ first :: others, v ∈ s.names) →
        ∃ top t, s.union first others = .ok (top, t)) ∧
      (∀ v ∈ s.names, ∀ site, ∃ t, s.mark v site = .ok t) ∧
      (∀ v, ∃ t, s.redefine v = .ok t) ∧
      ∀ u : Regions, u.Built (fun _ => True) → ∃ t, s.join u = .ok t := by
  have hP := Site.closed_true
  have hs := h.wellFormed hP
  refine ⟨consistent_of_wellFormed hs (h.weighed hP), ?_, ?_, ?_, ?_, ?_⟩
  · intro v hv
    obtain ⟨r, t, hf, ⟨path, hpath⟩, -⟩ := find_spec hs hv
    exact ⟨path, r, t, hpath, hf⟩
  · intro first others hvs
    obtain ⟨top, t, hok, -⟩ := union_spec hP hs hvs
    exact ⟨top, t, hok⟩
  · intro v hv site
    have hsite : (fun _ : Site => True) site := trivial
    obtain ⟨t, hok, -⟩ := mark_spec hP hs hv hsite
    exact ⟨t, hok⟩
  · intro v
    obtain ⟨t, hok, -⟩ := redefine_spec hs v
    exact ⟨t, hok⟩
  · intro u hu
    obtain ⟨t, hok, -⟩ := join_spec hP hs (hu.wellFormed hP)
    exact ⟨t, hok⟩

/-- A region of three that was sent, after its representative was defined
    anew. -/
def renewed : Except Untracked Regions := do
  let (_, s) ← (((empty.track "a").track "b").track "c").union "a" ["b", "c"]
  let s ← s.mark "c" sending
  s.redefine "a"

theorem built_renewed (h : renewed = .ok s) : s.Built fun _ => True := by
  obtain ⟨⟨r, s₁⟩, h₁, h⟩ := ok_of_bind h
  obtain ⟨s₂, h₂, h⟩ := ok_of_bind h
  exact ((((Built.empty.track _).track _).track _).union h₁ |>.mark trivial h₂).redefine h

/-- The rest of the region is found, and it has two members. -/
theorem renewed_consistent : ∃ s, renewed = .ok s ∧ s.Consistent ∧
    (∃ root t, s.find "c" = .ok (root, t)) ∧ (s.partition.region "b").encard = 2 ∧
    ∃ top t, s.union "a" ["c"] = .ok (top, t) := by
  have hsome : renewed.toOption.isSome = true := by decide +kernel
  obtain ⟨s, hs⟩ := exists_ok_of_isSome hsome
  have hnames : (renewed.map Regions.names) = .ok ["a", "b", "c"] := by decide +kernel
  have hweight : (renewed.map fun s => s.partition.weights.get? "b") = .ok (some 2) := by
    decide +kernel
  rw [hs] at hnames hweight
  have hnames : s.names = ["a", "b", "c"] := Except.ok.inj hnames
  obtain ⟨hcons, hfind, hunion, -⟩ := tables_consistent (built_renewed hs)
  obtain ⟨path, root, t, -, hroot⟩ := hfind "c" (by simp [hnames])
  exact ⟨s, hs, hcons, ⟨root, t, hroot⟩, hcons.weight "b" 2 (Except.ok.inj hweight),
    hunion "a" ["c"] (by simp [hnames])⟩

end Regions

end Sendability
