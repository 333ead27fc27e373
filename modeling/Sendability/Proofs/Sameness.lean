/-
  When two states are the same.

  `Regions.same` compares canonical forms: the regions as sorted lists of their
  members, with the fingerprints of their sites. A fingerprint has the callee,
  the kind and the source of a site, which a view does not mention. So states
  are the same when they have one view and their sites match (`same_iff`): where
  the region of a name has sites at one point in both, these are told apart by
  nothing but what they hand over.

  Sites match when they all satisfy a property under which the point of a site
  determines the rest (`Site.Coherent`); then states are the same when they have
  one view (`same_spec`).
-/

import Sendability.Proofs.Joining
import Sendability.Proofs.Sorting

namespace Sendability

/-- Sites of one point are the same but for what they hand over. -/
def Site.Coherent (P : Site → Prop) : Prop :=
  ∀ a b : Site, P a → P b → a.point.key = b.point.key →
    a.callee = b.callee ∧ a.kind = b.kind ∧ a.source = b.source

-- ============================================================================
-- Fingerprints
-- ============================================================================

/-- The fingerprints of a record in order. -/
def Record.fingerprints (r : Record) : List Fingerprint :=
  sortBy Fingerprint.le (distinct (r.sites.map Site.fingerprint))

theorem Site.key_of_fingerprint {a b : Site} (h : a.fingerprint = b.fingerprint) :
    a.key = b.key := by
  simp only [Site.fingerprint, Fingerprint.mk.injEq] at h
  obtain ⟨hblock, hop, hcallee, hkind, hsource, -⟩ := h
  simp only [Site.key, Point.key, hblock, hop, hcallee, hkind, hsource]

theorem Site.notes_of_fingerprint {a b : Site} (h : a.fingerprint = b.fingerprint)
    {k : Int × Int} {o : Option Name} (ha : a.Notes k o) : b.Notes k o := by
  simp only [Site.fingerprint, Fingerprint.mk.injEq] at h
  obtain ⟨hblock, hop, -, -, -, hvalues⟩ := h
  obtain ⟨hk, ho⟩ := ha
  have hkey : b.point.key = a.point.key := by
    rw [Point.key, Point.key, hblock, hop]
  refine ⟨hkey.trans hk, ?_⟩
  intro w hw
  have hmem := (sortText_eq_iff (nodup_distinct _) (nodup_distinct _)).1 hvalues w
  rw [mem_distinct, mem_distinct] at hmem
  exact hmem.1 (ho w hw)

namespace Record

variable {r r' : Record}

theorem mem_fingerprints (r : Record) (f : Fingerprint) :
    f ∈ r.fingerprints ↔ ∃ x ∈ r.sites, x.fingerprint = f := by
  rw [fingerprints, (perm_sortBy _ _).mem_iff, mem_distinct, List.mem_map]

theorem notes_of_fingerprints (h : r.fingerprints = r'.fingerprints) {k : Int × Int}
    {o : Option Name} (hn : r.Notes k o) : r'.Notes k o := by
  obtain ⟨x, hx, hn⟩ := hn
  have hmem : x.fingerprint ∈ r'.fingerprints := h ▸ (mem_fingerprints r _).2 ⟨x, hx, rfl⟩
  obtain ⟨y, hy, hxy⟩ := (mem_fingerprints r' _).1 hmem
  exact ⟨y, hy, Site.notes_of_fingerprint hxy.symm hn⟩

/-- The site at the point of another one has its fingerprint, if the records
    note the same and their sites at one point are told apart by nothing else. -/
theorem exists_fingerprint (hr : r.Proper) (hr' : r'.Proper)
    (hmatch : ∀ x ∈ r.sites, ∀ y ∈ r'.sites, x.point.key = y.point.key → x.key = y.key)
    (hn : ∀ k o, r.Notes k o ↔ r'.Notes k o) {x : Site} (hx : x ∈ r.sites) :
    ∃ y ∈ r'.sites, y.fingerprint = x.fingerprint := by
  obtain ⟨y, hy, hkey, -⟩ := (hn x.point.key none).1 ⟨x, hx, rfl, by simp⟩
  have hxy := hmatch x hx y hy hkey.symm
  simp only [Site.key, Prod.mk.injEq] at hxy
  obtain ⟨-, hcallee, hkind, hsource⟩ := hxy
  -- a value is noted at the point in one record when it is in the other
  have hvalues : ∀ w, w ∈ y.values ↔ w ∈ x.values := by
    intro w
    refine ⟨?_, ?_⟩
    · intro hw
      obtain ⟨x', hx', hk, hw'⟩ := (hn y.point.key (some w)).2 ⟨y, hy, rfl, by simp [hw]⟩
      rw [← hr.eq_of_key hx' hx (hk.trans hkey)]
      exact hw' w rfl
    · intro hw
      obtain ⟨y', hy', hk, hw'⟩ := (hn x.point.key (some w)).1 ⟨x, hx, rfl, by simp [hw]⟩
      rw [← hr'.eq_of_key hy' hy (hk.trans hkey.symm)]
      exact hw' w rfl
  refine ⟨y, hy, ?_⟩
  obtain ⟨hblock, hop⟩ := Prod.mk.inj hkey
  have hsorted : sortText (distinct y.values) = sortText (distinct x.values) := by
    rw [sortText_eq_iff (nodup_distinct _) (nodup_distinct _)]
    intro w
    rw [mem_distinct, mem_distinct, hvalues]
  simp only [Site.fingerprint, hblock, hop, hcallee, hkind, hsource, hsorted]

theorem fingerprints_eq (hr : r.Proper) (hr' : r'.Proper)
    (hmatch : ∀ x ∈ r.sites, ∀ y ∈ r'.sites, x.point.key = y.point.key → x.key = y.key)
    (hn : ∀ k o, r.Notes k o ↔ r'.Notes k o) : r.fingerprints = r'.fingerprints := by
  refine sortBy_fingerprint_eq (nodup_distinct _) (nodup_distinct _) ?_
  intro f
  rw [mem_distinct, mem_distinct, List.mem_map, List.mem_map]
  refine ⟨?_, ?_⟩
  · rintro ⟨x, hx, rfl⟩
    exact exists_fingerprint hr hr' hmatch hn hx
  · rintro ⟨x, hx, rfl⟩
    have hback : ∀ y ∈ r'.sites, ∀ z ∈ r.sites, y.point.key = z.point.key → y.key = z.key :=
      fun y hy z hz h => (hmatch z hz y hy h.symm).symm
    exact exists_fingerprint hr' hr hback (fun k o => (hn k o).symm) hx

end Record

-- ============================================================================
-- Canonical forms
-- ============================================================================

namespace Regions

variable {P : Site → Prop} {s t : Regions}

/-- The canonical form of the region with the representative `r`. -/
def Shows (s : Regions) (r : Name) (rv : RegionView) : Prop :=
  ∃ ms : List Name, ms.Nodup ∧ ms ≠ [] ∧ (∀ x, x ∈ ms ↔ s.partition.Rep x r) ∧
    rv = ⟨sortText ms, (s.recordAt r).fingerprints⟩

theorem Shows.mem_members {r : Name} {rv : RegionView} (h : s.Shows r rv) (x : Name) :
    x ∈ rv.members ↔ s.partition.Rep x r := by
  obtain ⟨ms, -, -, hms, rfl⟩ := h
  rw [mem_sortText, hms]

/-- Regions with the same members are one region. -/
theorem Shows.eq_of_members {r r' : Name} {rv rv' : RegionView} (h : s.Shows r rv)
    (h' : s.Shows r' rv') (hm : rv.members = rv'.members) : r = r' ∧ rv = rv' := by
  obtain ⟨ms, -, hne, hms, rfl⟩ := h
  obtain ⟨x, hx⟩ := List.exists_mem_of_ne_nil ms hne
  have hx' : s.partition.Rep x r' := by
    rw [← h'.mem_members, ← hm, mem_sortText]
    exact hx
  obtain rfl := ((hms x).1 hx).unique hx'
  obtain ⟨ms', -, -, -, rfl⟩ := h'
  exact ⟨rfl, by rw [RegionView.mk.injEq]; exact ⟨hm, rfl⟩⟩

/-- A list has the canonical form of every region once. -/
structure Lists (s : Regions) (l : List RegionView) : Prop where
  nodup : l.Nodup
  shows : ∀ rv ∈ l, ∃ r, s.Shows r rv
  all : ∀ x r, s.partition.Rep x r → ∃ rv ∈ l, s.Shows r rv

theorem canonical_spec (hs : s.WellFormed P) :
    ∃ l u, s.canonical =
        .ok (sortBy (fun a b => (List.compareLex Ord.compare a.members b.members).isLE) l, u) ∧
      s.Lists l := by
  obtain ⟨groups, q, hok, hq, hms, hall⟩ := Partition.classes_spec hs.partition
  have hshows : ∀ e ∈ groups.entries,
      s.Shows e.1 (viewOf { s with partition := q } e.1 e.2) := by
    intro e he
    obtain ⟨h1, h2, h3⟩ := hms e.1 e.2 ((Table.mem_entries_iff _ _ _).1 he)
    exact ⟨e.2, h1, h2, h3, rfl⟩
  refine ⟨groups.entries.map fun e => viewOf { s with partition := q } e.1 e.2,
    { s with partition := q }, ?_, ?_, ?_, ?_⟩
  · simp only [canonical, classes, hok, bind, Except.bind, pure, Except.pure]
  · refine List.Nodup.map_on ?_ (List.Nodup.of_map _ groups.nodup)
    intro e he e' he' heq
    obtain ⟨hroot, -⟩ := (hshows e he).eq_of_members (hshows e' he') (by rw [heq])
    exact List.inj_on_of_nodup_map groups.nodup he he' hroot
  · intro rv hrv
    obtain ⟨e, he, rfl⟩ := List.mem_map.1 hrv
    exact ⟨e.1, hshows e he⟩
  · intro x r hr
    obtain ⟨ms, hget⟩ := Option.isSome_iff_exists.1 ((Table.mem_keys_iff _ _).1 (hall x r hr))
    have he : (r, ms) ∈ groups.entries := (Table.mem_entries_iff _ _ _).2 hget
    exact ⟨_, List.mem_map.2 ⟨(r, ms), he, rfl⟩, hshows (r, ms) he⟩

/-- A state whose regions are all regions of another is below it. -/
theorem Lists.view_le {l l' : List RegionView} (h : s.Lists l) (h' : t.Lists l')
    (hs : s.WellFormed P) (ht : t.WellFormed P) (hsub : ∀ rv ∈ l, rv ∈ l') :
    s.view ≤ t.view := by
  have hregion : ∀ x r, s.partition.Rep x r → ∃ rv r', s.Shows r rv ∧ t.Shows r' rv := by
    intro x r hr
    obtain ⟨rv, hrv, hsr⟩ := h.all x r hr
    obtain ⟨r', htr⟩ := h'.shows rv (hsub rv hrv)
    exact ⟨rv, r', hsr, htr⟩
  refine ⟨?_, ?_, ?_⟩
  · intro x hx
    obtain ⟨r, hr⟩ := hs.partition.rep x (view_tracked.1 hx)
    obtain ⟨rv, r', hrv, hrv'⟩ := hregion x r hr
    exact view_tracked.2 ((hrv'.mem_members x).1 ((hrv.mem_members x).2 hr)).mem_names
  · intro a b hab
    obtain ⟨r, ha, hb⟩ := (view_linked hs a b).1 hab
    obtain ⟨rv, r', hrv, hrv'⟩ := hregion a r ha
    exact (view_linked ht a b).2 ⟨r', (hrv'.mem_members a).1 ((hrv.mem_members a).2 ha),
      (hrv'.mem_members b).1 ((hrv.mem_members b).2 hb)⟩
  · intro v k o hn
    obtain ⟨r, hr, hn⟩ := (view_noted hs v k o).1 hn
    obtain ⟨rv, r', hrv, hrv'⟩ := hregion v r hr
    refine (view_noted ht v k o).2 ⟨r', (hrv'.mem_members v).1 ((hrv.mem_members v).2 hr), ?_⟩
    obtain ⟨ms, -, -, -, rfl⟩ := hrv
    obtain ⟨ms', -, -, -, heq⟩ := hrv'
    exact Record.notes_of_fingerprints (RegionView.mk.inj heq).2 hn

/-- Where the region of a name has sites at one point in both states, they are
    told apart by nothing but what they hand over. -/
def Matching (s t : Regions) : Prop :=
  ∀ v x y, s.Carries v x → t.Carries v y → x.point.key = y.point.key → x.key = y.key

theorem Matching.symm (h : Matching s t) : Matching t s :=
  fun v x y hx hy hkey => (h v y x hy hx hkey.symm).symm

/-- Regions that are shown alike have matching sites. -/
theorem Shows.matching {r r' : Name} {rv : RegionView} (h : s.Shows r rv) (h' : t.Shows r' rv)
    (ht : t.WellFormed P) {x y : Site} (hx : x ∈ (s.recordAt r).sites)
    (hy : y ∈ (t.recordAt r').sites) (hkey : x.point.key = y.point.key) : x.key = y.key := by
  obtain ⟨ms, -, -, -, rfl⟩ := h
  obtain ⟨ms', -, -, -, heq⟩ := h'
  have hmem : x.fingerprint ∈ (t.recordAt r').fingerprints := by
    rw [← (RegionView.mk.inj heq).2]
    exact (Record.mem_fingerprints _ _).2 ⟨x, hx, rfl⟩
  obtain ⟨z, hz, hzx⟩ := (Record.mem_fingerprints _ _).1 hmem
  have hzkey : z.key = x.key := Site.key_of_fingerprint hzx
  have hpoint : z.point.key = y.point.key := (Prod.mk.inj hzkey).1.trans hkey
  rw [← (proper_recordAt ht r').eq_of_key hz hy hpoint, hzkey]

/-- States whose regions are shown alike have matching sites. -/
theorem Lists.matching {l l' : List RegionView} (h : s.Lists l) (h' : t.Lists l')
    (hs : s.WellFormed P) (ht : t.WellFormed P) (hsub : ∀ rv ∈ l, rv ∈ l') : Matching s t := by
  intro v x y hx hy hkey
  obtain ⟨r, hr, hx⟩ := (carries_iff hs v x).1 hx
  obtain ⟨z, hz, hy⟩ := (carries_iff ht v y).1 hy
  obtain ⟨rv, hrv, hshow⟩ := h.all v r hr
  obtain ⟨r', hshow'⟩ := h'.shows rv (hsub rv hrv)
  have hr' : t.partition.Rep v r' := (hshow'.mem_members v).1 ((hshow.mem_members v).2 hr)
  rw [hz.unique hr'] at hy
  exact hshow.matching hshow' ht hx hy hkey

/-- States with one view and matching sites have the same regions. -/
theorem Shows.of_view (hmatch : Matching s t) (hs : s.WellFormed P) (ht : t.WellFormed P)
    (h : s.view = t.view) {r : Name} {rv : RegionView} (hrv : s.Shows r rv) :
    ∃ r', t.partition.Rep r' r' ∧ t.Shows r' rv := by
  obtain ⟨ms, hnodup, hne, hms, rfl⟩ := hrv
  obtain ⟨x, hx⟩ := List.exists_mem_of_ne_nil ms hne
  have hxr : s.partition.Rep x r := (hms x).1 hx
  have hxt : x ∈ t.names := by
    rw [← view_tracked, ← h, view_tracked]
    exact hxr.mem_names
  obtain ⟨r', hxr'⟩ := ht.partition.rep x hxt
  -- the members are the names linked to `x`, and the notes those at `x`
  have hmembers : ∀ y, s.partition.Rep y r ↔ t.partition.Rep y r' := by
    intro y
    have hlink : s.view.linked y x ↔ t.view.linked y x := by rw [h]
    rw [view_linked hs, view_linked ht] at hlink
    refine ⟨?_, ?_⟩
    · intro hy
      obtain ⟨z, hyz, hxz⟩ := hlink.1 ⟨r, hy, hxr⟩
      exact hxr'.unique hxz ▸ hyz
    · intro hy
      obtain ⟨z, hyz, hxz⟩ := hlink.2 ⟨r', hy, hxr'⟩
      exact hxr.unique hxz ▸ hyz
  have hnotes : ∀ k o, (s.recordAt r).Notes k o ↔ (t.recordAt r').Notes k o := by
    intro k o
    have hnoted : s.view.noted x k o ↔ t.view.noted x k o := by rw [h]
    rw [view_noted hs, view_noted ht] at hnoted
    refine ⟨?_, ?_⟩
    · intro hn
      obtain ⟨z, hxz, hn'⟩ := hnoted.1 ⟨r, hxr, hn⟩
      exact hxr'.unique hxz ▸ hn'
    · intro hn
      obtain ⟨z, hxz, hn'⟩ := hnoted.2 ⟨r', hxr', hn⟩
      exact hxr.unique hxz ▸ hn'
  have hsites : ∀ a ∈ (s.recordAt r).sites, ∀ b ∈ (t.recordAt r').sites,
      a.point.key = b.point.key → a.key = b.key :=
    fun a ha b hb => hmatch x a b ((carries_iff hs x a).2 ⟨r, hxr, ha⟩)
      ((carries_iff ht x b).2 ⟨r', hxr', hb⟩)
  refine ⟨r', hxr'.self, ms, hnodup, hne, fun y => (hms y).trans (hmembers y), ?_⟩
  rw [Record.fingerprints_eq (proper_recordAt hs r) (proper_recordAt ht r') hsites hnotes]

/-- What a state lists, every state with its view and matching sites lists: one
    name settles the region. -/
theorem Lists.mem_of_view {l l' : List RegionView} (h : s.Lists l) (h' : t.Lists l')
    (hmatch : Matching s t) (hs : s.WellFormed P) (ht : t.WellFormed P) (hview : s.view = t.view)
    {rv : RegionView} (hrv : rv ∈ l) : rv ∈ l' := by
  obtain ⟨r, hsr⟩ := h.shows rv hrv
  obtain ⟨r', hr', htr⟩ := hsr.of_view hmatch hs ht hview
  obtain ⟨rv', hrv', htr'⟩ := h'.all r' r' hr'
  have hm : rv.members = rv'.members := by
    obtain ⟨ms, hn, -, hms, rfl⟩ := htr
    obtain ⟨ms', hn', -, hms', rfl⟩ := htr'
    exact (sortText_eq_iff hn hn').2 fun x => (hms x).trans (hms' x).symm
  rw [(htr.eq_of_members htr' hm).2]
  exact hrv'

/-- Two states are the same exactly when they have one view and matching sites. -/
theorem same_iff (hs : s.WellFormed P) (ht : t.WellFormed P) :
    ∃ b, s.same t = .ok b ∧ (b = true ↔ s.view = t.view ∧ Matching s t) := by
  obtain ⟨l, u, hl, h⟩ := canonical_spec hs
  obtain ⟨l', u', hl', h'⟩ := canonical_spec ht
  refine ⟨_, by simp only [same, hl, hl', bind, Except.bind, pure, Except.pure]; rfl, ?_⟩
  rw [decide_eq_true_iff]
  refine ⟨?_, ?_⟩
  · intro heq
    have hmem : ∀ rv, rv ∈ l ↔ rv ∈ l' := by
      intro rv
      rw [← (perm_sortBy _ l).mem_iff, heq, (perm_sortBy _ l').mem_iff]
    have hview : s.view = t.view :=
      le_antisymm (h.view_le h' hs ht fun rv => (hmem rv).1)
        (h'.view_le h ht hs fun rv => (hmem rv).2)
    exact ⟨hview, h.matching h' hs ht fun rv => (hmem rv).1⟩
  · rintro ⟨hview, hmatch⟩
    have hmem : ∀ rv, rv ∈ l ↔ rv ∈ l' := fun rv =>
      ⟨h.mem_of_view h' hmatch hs ht hview, h'.mem_of_view h hmatch.symm ht hs hview.symm⟩
    refine sortBy_eq_of_mem_iff (fun a b => total_of_cmp a.members b.members)
      (fun _ _ _ => Std.TransCmp.isLE_trans) ?_ h.nodup h'.nodup hmem
    intro a ha b hb hab hba
    obtain ⟨r, hra⟩ := h.shows a ha
    obtain ⟨r', hrb⟩ := h.shows b ((hmem b).2 hb)
    exact (hra.eq_of_members hrb (eq_of_cmp hab hba)).2

theorem carries_property (hs : s.WellFormed P) {v : Name} {x : Site} (h : s.Carries v x) : P x := by
  obtain ⟨r, -, hx⟩ := (carries_iff hs v x).1 h
  exact sites_recordAt hs r x hx

theorem matching_of_coherent (hP : Site.Coherent P) (hs : s.WellFormed P) (ht : t.WellFormed P) :
    Matching s t := by
  intro v x y hx hy hkey
  obtain ⟨hcallee, hkind, hsource⟩ :=
    hP x y (carries_property hs hx) (carries_property ht hy) hkey
  simp only [Site.key, hkey, hcallee, hkind, hsource]

/-- Where points determine the rest, two states are the same exactly when they
    have one view. -/
theorem same_spec (hP : Site.Coherent P) (hs : s.WellFormed P) (ht : t.WellFormed P) :
    ∃ b, s.same t = .ok b ∧ (b = true ↔ s.view = t.view) := by
  obtain ⟨b, hb, hiff⟩ := same_iff hs ht
  exact ⟨b, hb, hiff.trans (and_iff_left (matching_of_coherent hP hs ht))⟩

theorem same_of_view (hP : Site.Coherent P) (hs : s.WellFormed P) (ht : t.WellFormed P)
    (h : s.view = t.view) : s.same t = .ok true := by
  obtain ⟨b, hb, hiff⟩ := same_spec hP hs ht
  rw [hb, hiff.2 h]

theorem view_of_same (hP : Site.Coherent P) (hs : s.WellFormed P) (ht : t.WellFormed P)
    (h : s.same t = .ok true) : s.view = t.view := by
  obtain ⟨b, hb, hiff⟩ := same_spec hP hs ht
  exact hiff.1 (Except.ok.inj (hb.symm.trans h))

end Regions

end Sendability
