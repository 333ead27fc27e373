/-
  Transfer records form an idempotent monoid.

  Merging two sites is associative and idempotent as it stands, in every field
  and in the order of values and types (`Site.merge_assoc`). A proper record is
  determined by the site it has at each point (`ext_of_at?`), and records are
  merged point by point (`at?_merge`), so the laws of sites are those of
  records.

  Merging is not commutative: the first record decides the order of values and
  what is not handed over. Up to that it is (`twin_merge`).
-/

import Sendability.Proofs.Records

namespace Sendability

-- ============================================================================
-- Sites
-- ============================================================================

namespace Site

/-- The site that a merge makes, whether anything is new or not. -/
theorem merge_eq (s t : Site) : s.merge t =
    { s with
      values := s.values ++ t.values.filter (· ∉ s.values)
      types := s.types ++ t.types.filter (· ∉ s.types) } := by
  rw [← values_merge, ← types_merge, merge]
  split
  · rfl
  · rfl

/-- What is new in a third list is what is new in it after either two. -/
theorem append_new_assoc (l l' l'' : List Name) :
    (l ++ l'.filter (· ∉ l)) ++ l''.filter (· ∉ l ++ l'.filter (· ∉ l)) =
      l ++ (l' ++ l''.filter (· ∉ l')).filter (· ∉ l) := by
  rw [List.append_assoc, List.filter_append, List.filter_filter]
  congr 2
  apply List.filter_congr
  intro w _
  rw [Bool.eq_iff_iff, Bool.and_eq_true, decide_eq_true_eq, decide_eq_true_eq, decide_eq_true_eq,
    mem_append_new, not_or]

theorem merge_assoc (a b c : Site) : (a.merge b).merge c = a.merge (b.merge c) := by
  rw [merge_eq (a.merge b), merge_eq a (b.merge c), values_merge, values_merge, types_merge,
    types_merge, append_new_assoc, append_new_assoc, merge_eq]

theorem merge_self (s : Site) : s.merge s = s := by
  rw [merge, if_pos ⟨rfl, rfl⟩]

instance : Std.Associative merge := ⟨merge_assoc⟩

instance : Std.IdempotentOp merge := ⟨merge_self⟩

/-- The sites are the same but for the order of what they hand over. -/
structure Twin (x y : Site) : Prop where
  key : x.key = y.key
  values : ∀ w, w ∈ x.values ↔ w ∈ y.values
  types : ∀ w, w ∈ x.types ↔ w ∈ y.types

theorem twin_refl (x : Site) : Twin x x := ⟨rfl, fun _ => Iff.rfl, fun _ => Iff.rfl⟩

/-- Sites of one call are merged alike in either order. -/
theorem twin_merge {x y : Site} (h : x.key = y.key) : Twin (x.merge y) (y.merge x) where
  key := by rw [key_merge, key_merge, h]
  values := by
    intro w
    rw [mem_values_merge, mem_values_merge, or_comm]
  types := by
    intro w
    rw [mem_types_merge, mem_types_merge, or_comm]

end Site

-- ============================================================================
-- Records by points
-- ============================================================================

namespace Record

variable {r s : Record} {k : Int × Int} {x : Site}

/-- The site at a point. -/
def at? (r : Record) (k : Int × Int) : Option Site := r.sites.find? fun x => x.point.key = k

theorem at?_eq_none_iff : r.at? k = none ↔ ∀ y ∈ r.sites, y.point.key ≠ k := by
  rw [at?, List.find?_eq_none]
  simp only [decide_eq_true_eq]

theorem at?_eq_some_iff (hr : r.Proper) : r.at? k = some x ↔ x ∈ r.sites ∧ x.point.key = k := by
  constructor
  · intro h
    exact ⟨List.mem_of_find?_eq_some h, by simpa using List.find?_some h⟩
  · rintro ⟨hx, rfl⟩
    cases h : r.at? x.point.key with
    | none => exact absurd rfl (at?_eq_none_iff.1 h x hx)
    | some y =>
      have hkey : y.point.key = x.point.key := by simpa using List.find?_some h
      rw [hr.eq_of_key (List.mem_of_find?_eq_some h) hx hkey]

/-- Records whose sites are related point by point list related sites. -/
theorem forall₂_of_at? {R : Site → Site → Prop} (hr : r.Proper) (hs : s.Proper)
    (h : ∀ k, Option.Rel R (r.at? k) (s.at? k)) : List.Forall₂ R r.sites s.sites := by
  have hnotes : ∀ q : Record, q.Proper → ∀ k, q.Notes k none ↔ ∃ x, q.at? k = some x := by
    intro q hq k
    simp [Notes, Site.Notes, at?_eq_some_iff hq]
  have hpoints := points_eq hr hs fun k => by
    rw [hnotes r hr, hnotes s hs]
    have hk := h k
    generalize r.at? k = o, s.at? k = o' at hk
    cases hk <;> simp
  have hkeys : List.Forall₂ Eq (r.sites.map fun x => x.point.key)
      (s.sites.map fun x => x.point.key) := by
    rw [hpoints]
    exact List.forall₂_refl _
  rw [List.forall₂_map_left_iff, List.forall₂_map_right_iff, List.forall₂_iff_zip] at hkeys
  rw [List.forall₂_iff_zip]
  refine ⟨hkeys.1, ?_⟩
  intro x y hxy
  -- sites at one place of the two lists stand at one point
  have hkey : x.point.key = y.point.key := hkeys.2 hxy
  obtain ⟨hx, hy⟩ := List.of_mem_zip hxy
  have hrel := h x.point.key
  rw [(at?_eq_some_iff hr).2 ⟨hx, rfl⟩, (at?_eq_some_iff hs).2 ⟨hy, hkey.symm⟩] at hrel
  cases hrel with
  | some hR => exact hR

/-- A proper record is determined by the sites at its points. -/
theorem ext_of_at? (hr : r.Proper) (hs : s.Proper) (h : ∀ k, r.at? k = s.at? k) : r = s := by
  have hall : List.Forall₂ Eq r.sites s.sites := by
    apply forall₂_of_at? hr hs
    intro k
    rw [h k]
    cases s.at? k with
    | none => exact .none
    | some x => exact .some rfl
  rw [List.forall₂_eq_eq_eq] at hall
  cases r
  cases s
  exact congrArg _ hall

/-- Records are merged point by point. -/
theorem at?_merge (hr : r.Proper) (hs : s.Proper) (k : Int × Int) :
    (r.merge s).at? k = Option.merge Site.merge (r.at? k) (s.at? k) := by
  have hp := proper_merge hr hs
  have hmem := mem_sites_merge hr hs
  cases hrk : r.at? k with
  | none =>
    have hfresh := at?_eq_none_iff.1 hrk
    rw [Option.merge_none_left]
    cases hsk : s.at? k with
    | none =>
      rw [at?_eq_none_iff]
      intro y hy
      rcases (hmem y).1 hy with ⟨hy, -⟩ | ⟨hy, -⟩ | ⟨a, ha, b, -, -, rfl⟩
      · exact hfresh y hy
      · exact at?_eq_none_iff.1 hsk y hy
      · rw [Site.point_merge]
        exact hfresh a ha
    | some b =>
      obtain ⟨hb, rfl⟩ := (at?_eq_some_iff hs).1 hsk
      exact (at?_eq_some_iff hp).2 ⟨(hmem b).2 (.inr (.inl ⟨hb, hfresh⟩)), rfl⟩
  | some a =>
    obtain ⟨ha, rfl⟩ := (at?_eq_some_iff hr).1 hrk
    cases hsk : s.at? a.point.key with
    | none =>
      rw [Option.merge_none_right]
      exact (at?_eq_some_iff hp).2 ⟨(hmem a).2 (.inl ⟨ha, at?_eq_none_iff.1 hsk⟩), rfl⟩
    | some b =>
      obtain ⟨hb, hkey⟩ := (at?_eq_some_iff hs).1 hsk
      rw [Option.merge_some_some]
      refine (at?_eq_some_iff hp).2 ⟨(hmem _).2 (.inr (.inr ⟨a, ha, b, hb, hkey, rfl⟩)), ?_⟩
      rw [Site.point_merge]

-- ============================================================================
-- The laws
-- ============================================================================

theorem merge_empty (r : Record) : r.merge empty = r := rfl

theorem empty_merge (r : Record) : empty.merge r = r := by
  obtain ⟨sites⟩ := r
  cases sites with
  | nil => rfl
  | cons x l => rfl

theorem merge_self (hr : r.Proper) : r.merge r = r := by
  apply ext_of_at? (proper_merge hr hr) hr
  intro k
  rw [at?_merge hr hr]
  exact Std.IdempotentOp.idempotent _

theorem merge_assoc {t : Record} (hr : r.Proper) (hs : s.Proper) (ht : t.Proper) :
    (r.merge s).merge t = r.merge (s.merge t) := by
  have hrs := proper_merge hr hs
  have hst := proper_merge hs ht
  apply ext_of_at? (proper_merge hrs ht) (proper_merge hr hst)
  intro k
  rw [at?_merge hrs ht, at?_merge hr hs, at?_merge hr hst, at?_merge hs ht]
  exact Std.Associative.assoc _ _ _

/-- Sites of two records that stand at one point agree on the callee, the kind
    and the source. -/
def Compatible (r s : Record) : Prop :=
  ∀ x ∈ r.sites, ∀ y ∈ s.sites, x.point.key = y.point.key →
    x.callee = y.callee ∧ x.kind = y.kind ∧ x.source = y.source

/-- Merging in either order gives twins at every point. -/
theorem twin_merge (hr : r.Proper) (hs : s.Proper) (h : Compatible r s) (k : Int × Int) :
    Option.Rel Site.Twin ((r.merge s).at? k) ((s.merge r).at? k) := by
  rw [at?_merge hr hs, at?_merge hs hr]
  cases hrk : r.at? k with
  | none =>
    rw [Option.merge_none_left, Option.merge_none_right]
    cases s.at? k with
    | none => exact .none
    | some b => exact .some (Site.twin_refl b)
  | some a =>
    obtain ⟨ha, hak⟩ := (at?_eq_some_iff hr).1 hrk
    cases hsk : s.at? k with
    | none => exact .some (Site.twin_refl a)
    | some b =>
      obtain ⟨hb, hbk⟩ := (at?_eq_some_iff hs).1 hsk
      have hpoint := hak.trans hbk.symm
      obtain ⟨hcallee, hkind, hsource⟩ := h a ha b hb hpoint
      exact .some (Site.twin_merge (by rw [Site.key, hpoint, hcallee, hkind, hsource, Site.key]))

/-- The sites stand in strict program order. -/
def InOrder (r : Record) : Prop := r.sites.Pairwise fun x y => x.point.Before y.point

/-- The points that a record has sites at. -/
def points (r : Record) : List (Int × Int) := r.sites.map fun x => x.point.key

theorem mem_points : k ∈ r.points ↔ r.Notes k none := by
  simp [points, Notes, Site.Notes]

/-- Merging records in strict program order gives such a record, with the points of
    both. It is an idempotent monoid with the empty record; and where the sites at
    common points agree, either order of two records gives sites that are the same
    but for the order of what they hand over. -/
theorem merge_monoid :
    (∀ a b : Record, a.InOrder → b.InOrder → (a.merge b).InOrder ∧
      ∀ k, k ∈ (a.merge b).points ↔ k ∈ a.points ∨ k ∈ b.points) ∧
    (∀ a : Record, empty.merge a = a ∧ a.merge empty = a) ∧
    (∀ a : Record, a.InOrder → a.merge a = a) ∧
    (∀ a b c : Record, a.InOrder → b.InOrder → c.InOrder →
      (a.merge b).merge c = a.merge (b.merge c)) ∧
    ∀ a b : Record, a.InOrder → b.InOrder → a.Compatible b →
      List.Forall₂ Site.Twin (a.merge b).sites (b.merge a).sites := by
  refine ⟨?_, fun a => ⟨empty_merge a, merge_empty a⟩, ?_, ?_, ?_⟩
  · intro a b ha hb
    have ha := proper_of_strict ha
    have hb := proper_of_strict hb
    refine ⟨(proper_merge ha hb).strict, ?_⟩
    intro k
    rw [mem_points, notes_merge ha hb, mem_points, mem_points]
  · intro a ha
    exact merge_self (proper_of_strict ha)
  · intro a b c ha hb hc
    exact merge_assoc (proper_of_strict ha) (proper_of_strict hb) (proper_of_strict hc)
  · intro a b ha hb h
    have ha := proper_of_strict ha
    have hb := proper_of_strict hb
    exact forall₂_of_at? (proper_merge ha hb) (proper_merge hb ha) (twin_merge ha hb h)

/-- A site that hands over some values at a point of the first block. -/
def handover (op : Int) (values types : List Name) : Site :=
  { point := ⟨0, op, "entry"⟩, callee := "send", kind := .entering, values, types
    source := "main" }

/-- Two records with one point in common, where they list different values. -/
def early : Record := ⟨[handover 0 ["a"] ["Box"], handover 1 ["b"] ["Box"]]⟩

@[inherit_doc early]
def late : Record := ⟨[handover 1 ["c", "b"] ["Bag", "Box"], handover 2 ["d"] ["Box"]]⟩

/-- The two orders differ in the order of values and in nothing else. -/
theorem early_late_merged : early.InOrder ∧ late.InOrder ∧ early.Compatible late ∧
    early.merge late ≠ late.merge early ∧
    List.Forall₂ Site.Twin (early.merge late).sites (late.merge early).sites ∧
    (early.merge late).merge early = early.merge (late.merge early) := by
  have hearly : early.InOrder := by simp [InOrder, early, handover, Point.Before]
  have hlate : late.InOrder := by simp [InOrder, late, handover, Point.Before]
  have hcompatible : early.Compatible late := by simp [Compatible, early, late, handover]
  obtain ⟨-, -, -, hassoc, hcomm⟩ := merge_monoid
  exact ⟨hearly, hlate, hcompatible, by decide +kernel,
    hcomm early late hearly hlate hcompatible, hassoc early late early hearly hlate hearly⟩

end Record

end Sendability
