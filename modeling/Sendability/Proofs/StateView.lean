/-
  The view of a state.

  `Regions.view` asks a state through its own queries. A state is `WellFormed P`
  when its partition is, and its records are kept under representatives, have
  sites in program order, one at a point, and all sites satisfy `P`, which is
  any property that merging two sites of one point keeps. On such a state every
  query succeeds, and the view is lawful (`lawful_view`).

  `Regions.Below` compares states through the queries alone. For well-formed
  states it follows from the order of their views (`below_of_view_le`).
-/

import Sendability.Proofs.Regrouping
import Sendability.Proofs.View

namespace Sendability

/-- Merging two sites of one point keeps `P`. -/
def Site.Closed (P : Site → Prop) : Prop :=
  ∀ a b : Site, P a → P b → a.point.key = b.point.key → P (a.merge b)

theorem Site.closed_true : Site.Closed fun _ => True := fun _ _ _ _ _ => trivial

/-- A record as states keep them: it has sites, in program order and one at a
    point, and all of them satisfy `P`. -/
structure Record.Kept (P : Site → Prop) (r : Record) : Prop where
  proper : r.Proper
  nonempty : r.sites ≠ []
  sites : ∀ x ∈ r.sites, P x

namespace Regions

/-- What the queries answer about a state. -/
def view (s : Regions) : View where
  tracked v := s.isTracked v = true
  linked a b := ∃ t, s.sameRegion a b = .ok (true, t)
  noted v k o := ∃ l t, s.sitesFor v = .ok (l, t) ∧ ∃ x ∈ l, x.Notes k o

/-- The region of `v` was transferred by the site `x`. -/
def Carries (s : Regions) (v : Name) (x : Site) : Prop :=
  ∃ l t, s.sitesFor v = .ok (l, t) ∧ x ∈ l

structure WellFormed (P : Site → Prop) (s : Regions) : Prop where
  partition : s.partition.WellFormed
  records : ∀ r rec, s.records.get? r = some rec → s.partition.Rep r r ∧ rec.Kept P

variable {P : Site → Prop} {s t : Regions} {v : Name}

-- ============================================================================
-- Queries
-- ============================================================================

theorem isTracked_iff : s.isTracked v = true ↔ v ∈ s.names := Table.contains_iff _ _

/-- The states differ in the lengths of paths only. -/
structure Alike (s t : Regions) : Prop where
  partition : s.partition.Alike t.partition
  records : t.records = s.records

theorem Alike.refl (s : Regions) : Alike s s := ⟨Partition.Alike.refl _, rfl⟩

theorem Alike.symm (h : Alike s t) : Alike t s := ⟨h.partition.symm, h.records.symm⟩

theorem Alike.trans {u : Regions} (h : Alike s t) (h' : Alike t u) : Alike s u :=
  ⟨h.partition.trans h'.partition, h'.records.trans h.records⟩

/-- States that differ in their paths only are well formed together. -/
theorem Alike.wellFormed (h : Alike s t) (hs : s.WellFormed P) : t.WellFormed P where
  partition := h.partition.wellFormed hs.partition
  records := by
    intro r rec hr
    rw [h.records] at hr
    obtain ⟨h1, h2⟩ := hs.records r rec hr
    exact ⟨(h.partition.rep r r).2 h1, h2⟩

theorem Alike.recordAt (h : Alike s t) (r : Name) : t.recordAt r = s.recordAt r := by
  rw [Regions.recordAt, h.records, Regions.recordAt]

/-- A tracked name has a representative, and looking it up changes paths only. -/
theorem find_spec (hs : s.WellFormed P) (hv : v ∈ s.names) :
    ∃ r t, s.find v = .ok (r, t) ∧ s.partition.Rep v r ∧ Alike s t := by
  obtain ⟨r, q, hf, hr, hq⟩ := Partition.find_spec hs.partition hv
  exact ⟨r, { s with partition := q }, by simp [find, hf], hr, hq, rfl⟩

/-- The record of a tracked name is that of its representative. -/
theorem recordFor_spec (hs : s.WellFormed P) (hv : v ∈ s.names) :
    ∃ r t, s.recordFor v = .ok (s.recordAt r, t) ∧ s.partition.Rep v r ∧ Alike s t := by
  obtain ⟨r, t, hf, hr, ht⟩ := find_spec hs hv
  exact ⟨r, t, by simp [recordFor, hf, ht.recordAt], hr, ht⟩

/-- A tracked name was transferred if the record of its representative says so. -/
theorem isTransferred_spec (hs : s.WellFormed P) (hv : v ∈ s.names) :
    ∃ r t, s.isTransferred v = .ok ((s.recordAt r).transferred, t) ∧ s.partition.Rep v r ∧
      Alike s t := by
  obtain ⟨r, t, hf, hr, ht⟩ := recordFor_spec hs hv
  exact ⟨r, t, by simp [isTransferred, isTracked_iff.2 hv, hf], hr, ht⟩

/-- The sites of a tracked name are those of its representative. -/
theorem sitesFor_spec (hs : s.WellFormed P) (hv : v ∈ s.names) :
    ∃ r t, s.sitesFor v = .ok ((s.recordAt r).sites, t) ∧ s.partition.Rep v r ∧ Alike s t := by
  obtain ⟨r, t, hf, hr, ht⟩ := recordFor_spec hs hv
  exact ⟨r, t, by simp [sitesFor, isTracked_iff.2 hv, hf], hr, ht⟩

theorem isTransferred_untracked (hv : v ∉ s.names) : s.isTransferred v = .ok (false, s) := by
  have h : ¬ s.isTracked v = true := fun h => hv (isTracked_iff.1 h)
  simp [isTransferred, h]

theorem sitesFor_untracked (hv : v ∉ s.names) : s.sitesFor v = .ok ([], s) := by
  have h : ¬ s.isTracked v = true := fun h => hv (isTracked_iff.1 h)
  simp [sitesFor, h]

-- ============================================================================
-- The view through representatives
-- ============================================================================

theorem view_tracked : s.view.tracked v ↔ v ∈ s.names := isTracked_iff

/-- Names are linked exactly when they have one representative. -/
theorem view_linked (hs : s.WellFormed P) (a b : Name) :
    s.view.linked a b ↔ ∃ r, s.partition.Rep a r ∧ s.partition.Rep b r := by
  refine ⟨?_, ?_⟩
  · rintro ⟨t, h⟩
    simp only [sameRegion, Partition.sameRegion, bind, Except.bind, pure, Except.pure] at h
    cases ha : s.partition.find a with
    | error e => simp [ha] at h
    | ok x =>
      obtain ⟨ra, p⟩ := x
      obtain ⟨hra, hp⟩ := Partition.find_ok hs.partition ha
      cases hb : p.find b with
      | error e => simp [ha, hb] at h
      | ok y =>
        obtain ⟨rb, q⟩ := y
        obtain ⟨hrb, -⟩ := Partition.find_ok (hp.wellFormed hs.partition) hb
        have hab : ra = rb := by
          simp [ha, hb] at h
          exact h.1
        exact ⟨ra, hra, hab ▸ (hp.rep b rb).1 hrb⟩
  · rintro ⟨r, ha, hb⟩
    obtain ⟨ra, p, hfa, hra, hp⟩ := Partition.find_spec hs.partition ha.mem_names
    have hb' : p.Rep b r := (hp.rep b r).2 hb
    obtain ⟨rb, q, hfb, hrb, -⟩ := Partition.find_spec (hp.wellFormed hs.partition) hb'.mem_names
    have hab : ra = rb := (hra.unique ha).trans (hb'.unique hrb)
    refine ⟨{ s with partition := q }, ?_⟩
    simp [sameRegion, Partition.sameRegion, bind, Except.bind, pure, Except.pure, hfa, hfb, hab]

/-- The query for tracked names answers whether they are linked. -/
theorem sameRegion_spec (hs : s.WellFormed P) {a b : Name} (ha : a ∈ s.names) (hb : b ∈ s.names) :
    ∃ answer u, s.sameRegion a b = .ok (answer, u) ∧ (answer = true ↔ s.view.linked a b) := by
  obtain ⟨ra, p, hfa, hra, hp⟩ := Partition.find_spec hs.partition ha
  have hb' : b ∈ p.names := hp.names.symm ▸ hb
  obtain ⟨rb, q, hfb, hrb, -⟩ := Partition.find_spec (hp.wellFormed hs.partition) hb'
  rw [hp.rep] at hrb
  refine ⟨decide (ra = rb), { s with partition := q }, ?_, ?_⟩
  · simp only [sameRegion, Partition.sameRegion, hfa, hfb, bind, Except.bind, pure, Except.pure]
  · rw [decide_eq_true_iff, view_linked hs]
    refine ⟨?_, ?_⟩
    · rintro rfl
      exact ⟨ra, hra, hrb⟩
    · rintro ⟨r, hr, hr'⟩
      exact (hra.unique hr).trans (hr'.unique hrb)

/-- The first name is looked up first, and has to be tracked. -/
theorem sameRegion_untracked_left {a : Name} (ha : a ∉ s.names) (b : Name) :
    s.sameRegion a b = .error ⟨a⟩ := by
  simp only [sameRegion, Partition.sameRegion, Partition.find_untracked ha, bind, Except.bind]

theorem sameRegion_untracked_right (hs : s.WellFormed P) {a b : Name} (ha : a ∈ s.names)
    (hb : b ∉ s.names) : s.sameRegion a b = .error ⟨b⟩ := by
  obtain ⟨ra, p, hfa, -, hp⟩ := Partition.find_spec hs.partition ha
  have hb' : b ∉ p.names := hp.names.symm ▸ hb
  simp only [sameRegion, Partition.sameRegion, hfa, Partition.find_untracked hb', bind, Except.bind]

/-- The sites of the region of a name are those of the record under its
    representative. -/
theorem carries_iff (hs : s.WellFormed P) (v : Name) (x : Site) :
    s.Carries v x ↔ ∃ r, s.partition.Rep v r ∧ x ∈ (s.recordAt r).sites := by
  by_cases hv : v ∈ s.names
  · obtain ⟨r, t, hf, hr, -⟩ := sitesFor_spec hs hv
    refine ⟨?_, ?_⟩
    · rintro ⟨l, t', h, hx⟩
      rw [hf] at h
      obtain ⟨rfl, -⟩ := Prod.mk.inj (Except.ok.inj h)
      exact ⟨r, hr, hx⟩
    · rintro ⟨r', hr', hx⟩
      rw [← hr.unique hr'] at hx
      exact ⟨_, t, hf, hx⟩
  · refine ⟨?_, ?_⟩
    · rintro ⟨l, t', h, hx⟩
      rw [sitesFor_untracked hv] at h
      obtain ⟨rfl, -⟩ := Prod.mk.inj (Except.ok.inj h)
      cases hx
    · rintro ⟨r, hr, -⟩
      exact absurd hr.mem_names hv

/-- What is noted for a name is noted at a site that it carries. -/
theorem noted_iff_carries (s : Regions) (v : Name) (k : Int × Int) (o : Option Name) :
    s.view.noted v k o ↔ ∃ x, s.Carries v x ∧ x.Notes k o := by
  refine ⟨?_, ?_⟩
  · rintro ⟨l, t, h, x, hx, hn⟩
    exact ⟨x, ⟨l, t, h, hx⟩, hn⟩
  · rintro ⟨x, ⟨l, t, h, hx⟩, hn⟩
    exact ⟨l, t, h, x, hx, hn⟩

/-- What is noted for a name is noted in the record of its representative. -/
theorem view_noted (hs : s.WellFormed P) (v : Name) (k : Int × Int) (o : Option Name) :
    s.view.noted v k o ↔ ∃ r, s.partition.Rep v r ∧ (s.recordAt r).Notes k o := by
  simp only [noted_iff_carries, carries_iff hs]
  refine ⟨?_, ?_⟩
  · rintro ⟨x, ⟨r, hr, hx⟩, hn⟩
    exact ⟨r, hr, x, hx, hn⟩
  · rintro ⟨r, hr, x, hx, hn⟩
    exact ⟨x, ⟨r, hr, hx⟩, hn⟩

/-- A representative without a record notes nothing. -/
theorem notes_recordAt (s : Regions) (r : Name) (k : Int × Int) (o : Option Name) :
    (s.recordAt r).Notes k o ↔ ∃ rec, s.records.get? r = some rec ∧ rec.Notes k o := by
  cases h : s.records.get? r with
  | none => simp [recordAt, h, Record.not_notes_empty]
  | some rec => simp [recordAt, h]

theorem proper_recordAt (hs : s.WellFormed P) (r : Name) : (s.recordAt r).Proper := by
  cases h : s.records.get? r with
  | none =>
    rw [recordAt, h]
    exact Record.proper_empty
  | some rec =>
    rw [recordAt, h]
    exact (hs.records r rec h).2.proper

theorem sites_recordAt (hs : s.WellFormed P) (r : Name) : ∀ x ∈ (s.recordAt r).sites, P x := by
  cases h : s.records.get? r with
  | none =>
    rw [recordAt, h]
    intro x hx
    cases hx
  | some rec =>
    rw [recordAt, h]
    exact (hs.records r rec h).2.sites

/-- The view of a well-formed state is lawful. -/
theorem lawful_view (hs : s.WellFormed P) : s.view.Lawful where
  refl := by
    intro v hv
    obtain ⟨r, hr⟩ := hs.partition.rep v (view_tracked.1 hv)
    exact (view_linked hs v v).2 ⟨r, hr, hr⟩
  tracked := by
    intro a b h
    obtain ⟨r, ha, -⟩ := (view_linked hs a b).1 h
    exact view_tracked.2 ha.mem_names
  symm := by
    intro a b h
    obtain ⟨r, ha, hb⟩ := (view_linked hs a b).1 h
    exact (view_linked hs b a).2 ⟨r, hb, ha⟩
  trans := by
    intro a b c h h'
    obtain ⟨r, ha, hb⟩ := (view_linked hs a b).1 h
    obtain ⟨r', hb', hc⟩ := (view_linked hs b c).1 h'
    obtain rfl := hb.unique hb'
    exact (view_linked hs a c).2 ⟨r, ha, hc⟩
  noted_tracked := by
    intro v k o h
    obtain ⟨r, hr, -⟩ := (view_noted hs v k o).1 h
    exact view_tracked.2 hr.mem_names
  noted_congr := by
    intro a b k o h hn
    obtain ⟨r, ha, hb⟩ := (view_linked hs a b).1 h
    obtain ⟨r', ha', hn⟩ := (view_noted hs a k o).1 hn
    obtain rfl := ha.unique ha'
    exact (view_noted hs b k o).2 ⟨r, hb, hn⟩

/-- A state is below a lawful view that tracks its names, links them to their
    representatives, and has what its records say. -/
theorem view_le_iff (hs : s.WellFormed P) {U : View} (hU : U.Lawful) :
    s.view ≤ U ↔ (∀ v ∈ s.names, U.tracked v) ∧ (∀ v r, s.partition.Rep v r → U.linked v r) ∧
      ∀ r rec, s.records.get? r = some rec → ∀ k o, rec.Notes k o → U.noted r k o := by
  refine ⟨?_, ?_⟩
  · intro h
    refine ⟨fun v hv => h.tracked v (view_tracked.2 hv), ?_, ?_⟩
    · intro v r hr
      exact h.linked v r ((view_linked hs v r).2 ⟨r, hr, hr.self⟩)
    · intro r rec hrec k o hn
      have hr := (hs.records r rec hrec).1
      exact h.noted r k o
        ((view_noted hs r k o).2 ⟨r, hr, (notes_recordAt s r k o).2 ⟨rec, hrec, hn⟩⟩)
  · rintro ⟨htracked, hlinked, hnoted⟩
    refine ⟨fun v hv => htracked v (view_tracked.1 hv), ?_, ?_⟩
    · intro a b hab
      obtain ⟨r, ha, hb⟩ := (view_linked hs a b).1 hab
      exact hU.trans (hlinked a r ha) (hU.symm (hlinked b r hb))
    · intro v k o hn
      obtain ⟨r, hv, hn⟩ := (view_noted hs v k o).1 hn
      obtain ⟨rec, hrec, hn⟩ := (notes_recordAt s r k o).1 hn
      exact hU.noted_congr (hU.symm (hlinked v r hv)) (hnoted r rec hrec k o hn)

/-- States that differ in their paths only have one view. -/
theorem Alike.view (h : Alike s t) (hs : s.WellFormed P) : t.view = s.view := by
  have ht := h.wellFormed hs
  refine View.eq_of_iff ?_ ?_ ?_
  · intro v
    rw [view_tracked, view_tracked, names, h.partition.names, names]
  · intro a b
    simp only [view_linked ht, view_linked hs, h.partition.rep]
  · intro v k o
    simp only [view_noted ht, view_noted hs, h.partition.rep, h.recordAt]

-- ============================================================================
-- States below others
-- ============================================================================

/-- Every tracked name of `s` is tracked in `t`, names of one region are in one
    region, and every site of the region of a name is there at its point with its
    values. -/
structure Below (s t : Regions) : Prop where
  tracked : ∀ v, s.isTracked v = true → t.isTracked v = true
  linked : ∀ a b, (∃ u, s.sameRegion a b = .ok (true, u)) → ∃ u, t.sameRegion a b = .ok (true, u)
  sites : ∀ v l u, s.sitesFor v = .ok (l, u) → ∃ l' u', t.sitesFor v = .ok (l', u') ∧
    ∀ x ∈ l, ∃ y ∈ l', y.point.key = x.point.key ∧ ∀ w ∈ x.values, w ∈ y.values

/-- A state whose view is smaller lies below the other, however both are represented. -/
theorem below_of_view_le {Q : Site → Prop} (hs : s.WellFormed P) (ht : t.WellFormed Q)
    (h : s.view ≤ t.view) : Below s t where
  tracked := h.tracked
  linked := h.linked
  sites := by
    intro v l u hl
    by_cases hv : v ∈ s.names
    · obtain ⟨r, u', hl', hr, -⟩ := sitesFor_spec hs hv
      rw [hl] at hl'
      obtain ⟨rfl, -⟩ := Prod.mk.inj (Except.ok.inj hl')
      have hvt : v ∈ t.names := view_tracked.1 (h.tracked v (view_tracked.2 hv))
      obtain ⟨r', w, hw, hr', -⟩ := sitesFor_spec ht hvt
      refine ⟨_, w, hw, ?_⟩
      intro x hx
      -- a note about `v` in `s` is a note in its record in `t`
      have hnote : ∀ o : Option Name, (∀ z ∈ o, z ∈ x.values) →
          (t.recordAt r').Notes x.point.key o := by
        intro o ho
        have hs' : s.view.noted v x.point.key o := (view_noted hs _ _ _).2 ⟨r, hr, x, hx, rfl, ho⟩
        obtain ⟨r'', hr'', hn⟩ := (view_noted ht _ _ _).1 (h.noted _ _ _ hs')
        rw [hr'.unique hr'']
        exact hn
      obtain ⟨y, hy, hkey, -⟩ := hnote none (by simp)
      refine ⟨y, hy, hkey, ?_⟩
      intro z hz
      obtain ⟨y', hy', hkey', hmem⟩ := hnote (some z) (by simp [hz])
      rw [(proper_recordAt ht r').eq_of_key hy hy' (hkey.trans hkey'.symm)]
      exact hmem z rfl
    · rw [sitesFor_untracked hv] at hl
      obtain ⟨rfl, -⟩ := Prod.mk.inj (Except.ok.inj hl)
      by_cases hvt : v ∈ t.names
      · obtain ⟨r', w, hw, -, -⟩ := sitesFor_spec ht hvt
        exact ⟨_, w, hw, by simp⟩
      · exact ⟨[], t, sitesFor_untracked hvt, by simp⟩

end Regions

end Sendability
