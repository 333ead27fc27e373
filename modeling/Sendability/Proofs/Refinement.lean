/-
  Regions are a set of classes.

  `Regions.plain` forgets how a state keeps its regions, and `answers_iff` says
  that nothing observable is lost: the queries answer about a state as some
  classes say exactly when these are the classes of the state. So a change of a
  state is described by what it does to the classes (`changes_refine`).

  The work is to follow the class of a representative through a change: where its
  members go, which representative they have afterwards, and that the record has
  gone the same way.
-/

import Sendability.Proofs.PlainRegions
import Sendability.Proofs.Representation

namespace Sendability

-- ============================================================================
-- Connected views
-- ============================================================================

namespace View

variable {A B : View}

/-- Names are linked as far as the links of two views connect them, and anything
    is noted about any name. -/
def connect (A B : View) : View where
  tracked v := A.tracked v ∨ B.tracked v
  linked := Relation.TransGen fun a b => A.linked a b ∨ B.linked a b
  noted v _ _ := A.tracked v ∨ B.tracked v

/-- Connecting two views closes their links. -/
theorem lawful_connect (hA : A.Lawful) (hB : B.Lawful) : (A.connect B).Lawful := by
  have htracked : ∀ {a b}, (A.connect B).linked a b → (A.connect B).tracked a := by
    intro a b hab
    obtain ⟨c, hac, -⟩ := Relation.TransGen.head'_iff.1 hab
    exact hac.imp hA.tracked hB.tracked
  have hsymm : ∀ {a b}, (A.connect B).linked a b → (A.connect B).linked b a := by
    intro a b hab
    induction hab with
    | single h => exact .single (h.imp hA.symm hB.symm)
    | tail _ h ih => exact .head (h.imp hA.symm hB.symm) ih
  exact
    { refl := fun hv => .single (hv.imp hA.refl hB.refl)
      tracked := htracked
      symm := hsymm
      trans := .trans
      noted_tracked := id
      noted_congr := fun hab _ => htracked (hsymm hab) }

theorem le_connect_left (hA : A.Lawful) : A ≤ A.connect B :=
  ⟨fun _ => .inl, fun _ _ h => .single (.inl h), fun _ _ _ h => .inl (hA.noted_tracked h)⟩

theorem le_connect_right (hB : B.Lawful) : B ≤ A.connect B :=
  ⟨fun _ => .inr, fun _ _ h => .single (.inr h), fun _ _ _ h => .inr (hB.noted_tracked h)⟩

end View

namespace Regions

variable {P : Site → Prop} {s t : Regions} {v : Name}

-- ============================================================================
-- The classes of a state
-- ============================================================================

/-- The region that `r` represents, as a class. -/
def plainRegion (s : Regions) (r : Name) : PlainRegion :=
  ⟨s.partition.region r, (s.recordAt r).siteMap⟩

/-- The classes of a state. -/
def plain (s : Regions) : PlainRegions where
  classes := {R | ∃ r, s.partition.Rep r r ∧ R = s.plainRegion r}
  nonempty := by
    rintro R ⟨r, hr, rfl⟩
    exact ⟨r, hr⟩
  disjoint := by
    rintro R ⟨r, -, rfl⟩ S ⟨r', -, rfl⟩ v hv hv'
    have hv : s.partition.Rep v r := hv
    rw [hv.unique hv']

theorem mem_plain {R : PlainRegion} :
    R ∈ s.plain.classes ↔ ∃ r, s.partition.Rep r r ∧ R = s.plainRegion r := Iff.rfl

theorem mem_plainRegion {r : Name} : v ∈ (s.plainRegion r).members ↔ s.partition.Rep v r := Iff.rfl

theorem plainRegion_congr {r : Name} (hmembers : ∀ x, t.partition.Rep x r ↔ s.partition.Rep x r)
    (hrecord : t.records.get? r = s.records.get? r) : t.plainRegion r = s.plainRegion r := by
  rw [plainRegion, Partition.region_congr hmembers, recordAt, hrecord]
  rfl

/-- The class of a name is that of its representative. -/
theorem exists_plain {Q : PlainRegion → Prop} :
    (∃ R ∈ s.plain.classes, v ∈ R.members ∧ Q R) ↔
      ∃ r, s.partition.Rep v r ∧ Q (s.plainRegion r) := by
  constructor
  · rintro ⟨R, ⟨r, -, rfl⟩, hv, hQ⟩
    exact ⟨r, hv, hQ⟩
  · rintro ⟨r, hr, hQ⟩
    exact ⟨s.plainRegion r, ⟨r, hr.self, rfl⟩, hr, hQ⟩

theorem links_plain {a b : Name} :
    s.plain.Links a b ↔ ∃ r, s.partition.Rep a r ∧ s.partition.Rep b r :=
  exists_plain (Q := fun R => b ∈ R.members)

theorem tracks_plain (hs : s.partition.WellFormed) : s.plain.Tracks v ↔ v ∈ s.names := by
  constructor
  · rintro ⟨R, ⟨r, -, rfl⟩, hv⟩
    exact (mem_plainRegion.1 hv).mem_names
  · intro hv
    obtain ⟨r, hr⟩ := hs.rep v hv
    exact ⟨s.plainRegion r, ⟨r, hr.self, rfl⟩, hr⟩

/-- The queries answer about a state as the classes say; the values of sites are
    read as sets. -/
structure Answers (s : Regions) (A : PlainRegions) : Prop where
  isTracked : ∀ v, s.isTracked v = true ↔ A.Tracks v
  sameRegion : ∀ a b, A.Tracks a → A.Tracks b →
    ∃ answer t, s.sameRegion a b = .ok (answer, t) ∧ (answer = true ↔ A.Links a b)
  isTransferred : ∀ v, ∃ answer t, s.isTransferred v = .ok (answer, t) ∧
    (answer = true ↔ ∃ R ∈ A.classes, v ∈ R.members ∧ ∃ k x, R.sites k = some x)
  sitesFor : ∀ v, ∃ l t, s.sitesFor v = .ok (l, t) ∧
    l.Pairwise (fun x y => x.point.Before y.point) ∧
    ∀ k x, (∃ y ∈ l, y.point.key = k ∧ y.plain = x) ↔
      ∃ R ∈ A.classes, v ∈ R.members ∧ R.sites k = some x

/-- A record says that a region was transferred when it has a site. -/
theorem transferred_iff_siteMap {rec : Record} (h : rec.Proper) :
    rec.transferred = true ↔ ∃ k x, rec.siteMap k = some x := by
  rw [Record.transferred_iff]
  constructor
  · intro hne
    obtain ⟨y, hy⟩ := List.exists_mem_of_ne_nil _ hne
    exact ⟨y.point.key, y.plain, Record.siteMap_of_mem h hy⟩
  · rintro ⟨k, x, hx⟩
    obtain ⟨y, hy, -⟩ := (Record.siteMap_eq_some_iff h).1 hx
    exact List.ne_nil_of_mem hy

/-- The query answers whether the class of a name has a site. -/
theorem isTransferred_plain (hs : s.WellFormed P) (v : Name) :
    ∃ answer t, s.isTransferred v = .ok (answer, t) ∧
      (answer = true ↔ ∃ R ∈ s.plain.classes, v ∈ R.members ∧ ∃ k x, R.sites k = some x) := by
  rw [exists_plain (Q := fun R => ∃ k x, R.sites k = some x)]
  by_cases hv : v ∈ s.names
  · obtain ⟨r, t, hok, hr, -⟩ := isTransferred_spec hs hv
    refine ⟨_, t, hok, ?_⟩
    rw [transferred_iff_siteMap (proper_recordAt hs r)]
    constructor
    · intro h
      exact ⟨r, hr, h⟩
    · rintro ⟨r', hr', h⟩
      rw [hr.unique hr']
      exact h
  · refine ⟨false, s, isTransferred_untracked hv, iff_of_false Bool.false_ne_true ?_⟩
    rintro ⟨r, hr, -⟩
    exact hv hr.mem_names

/-- The query lists the sites of the class of a name in order. -/
theorem sitesFor_plain (hs : s.WellFormed P) (v : Name) :
    ∃ l t, s.sitesFor v = .ok (l, t) ∧ l.Pairwise (fun x y => x.point.Before y.point) ∧
      ∀ k x, (∃ y ∈ l, y.point.key = k ∧ y.plain = x) ↔
        ∃ R ∈ s.plain.classes, v ∈ R.members ∧ R.sites k = some x := by
  by_cases hv : v ∈ s.names
  · obtain ⟨r, t, hok, hr, -⟩ := sitesFor_spec hs hv
    have hproper := proper_recordAt hs r
    refine ⟨_, t, hok, hproper.strict, ?_⟩
    intro k x
    rw [exists_plain (Q := fun R => R.sites k = some x), ← Record.siteMap_eq_some_iff hproper]
    constructor
    · intro h
      exact ⟨r, hr, h⟩
    · rintro ⟨r', hr', h⟩
      rw [hr.unique hr']
      exact h
  · refine ⟨[], s, sitesFor_untracked hv, List.Pairwise.nil, ?_⟩
    intro k x
    refine iff_of_false (by simp) ?_
    rintro ⟨R, hR, hvR, -⟩
    exact hv ((tracks_plain hs.partition).1 ⟨R, hR, hvR⟩)

/-- A state answers as its own classes do. -/
theorem answers_plain (hs : s.WellFormed P) : s.Answers s.plain where
  isTracked := by
    intro v
    rw [isTracked_iff, tracks_plain hs.partition]
  sameRegion := by
    intro a b ha hb
    rw [tracks_plain hs.partition] at ha hb
    obtain ⟨answer, t, hok, hanswer⟩ := sameRegion_spec hs ha hb
    exact ⟨answer, t, hok, by rw [hanswer, view_linked hs, links_plain]⟩
  isTransferred := isTransferred_plain hs
  sitesFor := sitesFor_plain hs

theorem Answers.tracks_iff {A B : PlainRegions} (h : s.Answers A) (h' : s.Answers B) :
    A.Tracks v ↔ B.Tracks v := by
  rw [← h.isTracked, h'.isTracked]

theorem Answers.links_of_links {A B : PlainRegions} (h : s.Answers A) (h' : s.Answers B)
    {a b : Name} (hab : A.Links a b) : B.Links a b := by
  obtain ⟨R, hR, ha, hb⟩ := hab
  have hta : A.Tracks a := ⟨R, hR, ha⟩
  have htb : A.Tracks b := ⟨R, hR, hb⟩
  obtain ⟨answer, t, hok, hiff⟩ := h.sameRegion a b hta htb
  obtain ⟨answer', t', hok', hiff'⟩ :=
    h'.sameRegion a b ((h.tracks_iff h').1 hta) ((h.tracks_iff h').1 htb)
  obtain ⟨rfl, -⟩ := Prod.mk.inj (Except.ok.inj (hok.symm.trans hok'))
  exact hiff'.1 (hiff.2 ⟨R, hR, ha, hb⟩)

/-- Classes are told by the answers, so a state answers as no others do. -/
theorem Answers.classes_subset {A B : PlainRegions} (h : s.Answers A) (h' : s.Answers B)
    {R : PlainRegion} (hR : R ∈ A.classes) : R ∈ B.classes := by
  apply PlainRegions.mem_classes_of_agree (fun a b => h.links_of_links h')
    (fun a b => h'.links_of_links h) _ hR
  intro v k x
  obtain ⟨l, t, hok, -, hl⟩ := h.sitesFor v
  obtain ⟨l', t', hok', -, hl'⟩ := h'.sitesFor v
  obtain ⟨rfl, -⟩ := Prod.mk.inj (Except.ok.inj (hok.symm.trans hok'))
  rw [← hl, hl']

/-- The answers determine the classes. -/
theorem answers_iff (hs : s.WellFormed P) {A : PlainRegions} : s.Answers A ↔ A = s.plain := by
  have hplain := answers_plain hs
  constructor
  · intro h
    apply PlainRegions.ext_classes
    intro R
    exact ⟨h.classes_subset hplain, hplain.classes_subset h⟩
  · rintro rfl
    exact hplain

-- ============================================================================
-- Tracking and redefining
-- ============================================================================

theorem recordAt_of_not_mem (hs : s.WellFormed P) (hv : v ∉ s.names) :
    s.recordAt v = Record.empty := by
  rw [recordAt]
  cases hrec : s.records.get? v with
  | none => rfl
  | some rec => exact absurd (hs.records v rec hrec).1.mem_names hv

/-- Paths do not matter for the classes. -/
theorem Alike.plain (h : Alike s t) : t.plain = s.plain := by
  have hregion : ∀ r, t.plainRegion r = s.plainRegion r := by
    intro r
    exact plainRegion_congr (fun x => h.partition.rep x r) (by rw [h.records])
  apply PlainRegions.ext_classes
  intro R
  rw [mem_plain, mem_plain]
  simp only [h.partition.rep, hregion]

theorem plainRegion_track_self (hs : s.WellFormed P) (hv : v ∉ s.names) :
    (s.track v).plainRegion v = .fresh v := by
  have hmembers : (s.track v).partition.region v = {v} := by
    ext x
    rw [Partition.mem_region, track, Partition.rep_add hs.partition hv, Set.mem_singleton_iff]
    constructor
    · rintro (h | h)
      · exact absurd h.self.mem_names hv
      · exact h.1
    · intro h
      exact .inr ⟨h, rfl⟩
  have hrecord : (s.track v).recordAt v = s.recordAt v := rfl
  rw [plainRegion, hmembers, hrecord, recordAt_of_not_mem hs hv]
  rfl

theorem plainRegion_track_other (hs : s.WellFormed P) (hv : v ∉ s.names) {r : Name}
    (hr : r ≠ v) : (s.track v).plainRegion r = s.plainRegion r := by
  have hrecord : (s.track v).records.get? r = s.records.get? r := rfl
  apply plainRegion_congr _ hrecord
  intro x
  rw [track, Partition.rep_add hs.partition hv]
  exact ⟨fun h => h.resolve_right fun h => hr h.2, .inl⟩

/-- Tracking a name adds a class for it. -/
theorem plain_track (hs : s.WellFormed P) (v : Name) : (s.track v).plain = s.plain.track v := by
  apply PlainRegions.ext_classes
  intro R
  by_cases hv : v ∈ s.names
  · have hc : s.partition.contains v = true := (Table.contains_iff _ _).2 hv
    have heq : s.track v = s := by rw [track, Partition.add, if_pos hc]
    rw [heq]
    constructor
    · exact .inl
    · rintro (hR | ⟨hno, -⟩)
      · exact hR
      · exact absurd ((tracks_plain hs.partition).2 hv) hno
  · have hrep := Partition.rep_add hs.partition hv
    have hne : ∀ {r}, s.partition.Rep r r → r ≠ v := by
      rintro r hr rfl
      exact hv hr.mem_names
    constructor
    · rintro ⟨r, hr, rfl⟩
      rcases (hrep r r).1 hr with hold | ⟨rfl, -⟩
      · exact .inl ⟨r, hold, plainRegion_track_other hs hv (hne hold)⟩
      · exact .inr ⟨fun h => hv ((tracks_plain hs.partition).1 h), plainRegion_track_self hs hv⟩
    · rintro (⟨r, hr, rfl⟩ | ⟨-, rfl⟩)
      · exact ⟨r, (hrep r r).2 (.inl hr), (plainRegion_track_other hs hv (hne hr)).symm⟩
      · exact ⟨v, (hrep v v).2 (.inr ⟨rfl, rfl⟩), (plainRegion_track_self hs hv).symm⟩

section Parted

variable {d : Partition.Detached}

theorem Parted.plainRegion_self (h : Parted s t v d) (hs : s.WellFormed P) :
    t.plainRegion v = .fresh v := by
  have hmembers : t.partition.region v = {v} := by
    ext x
    rw [Partition.mem_region, Set.mem_singleton_iff]
    constructor
    · intro hx
      by_contra hxv
      exact h.partition.not_rep hxv hx
    · rintro rfl
      exact (h.partition.rep x x).2 (.inl ⟨rfl, rfl⟩)
  rw [plainRegion, hmembers, recordAt, h.record_self hs]
  rfl

/-- What is left of the region of `v`. -/
theorem Parted.plainRegion_after (h : Parted s t v d) (hs : s.WellFormed P) {y : Name}
    (hy : d.after = some y) :
    t.plainRegion y = ⟨(s.plainRegion d.before).members \ {v}, (s.plainRegion d.before).sites⟩ := by
  have hmembers : t.partition.region y = s.partition.region d.before \ {v} := by
    ext x
    rw [Partition.mem_region]
    constructor
    · intro hx
      have hxv : x ≠ v := by
        rintro rfl
        exact (h.partition.after y hy).1 (h.partition.rep_self hx)
      obtain ⟨z, hz, ⟨rfl, -⟩ | ⟨hzb, rfl⟩⟩ := (h.partition.rep_of_ne hxv y).1 hx
      · exact ⟨hz, hxv⟩
      · exact absurd (h.partition.eq_before hy hz.self) hzb
    · rintro ⟨hx, hxv⟩
      exact (h.partition.rep_of_ne hxv y).2 ⟨d.before, hx, .inl ⟨rfl, hy⟩⟩
  have hrecord := h.record_of_rep hs h.partition.before.self (.inl ⟨rfl, hy⟩)
  rw [plainRegion, hmembers, recordAt, hrecord]
  rfl

/-- Other regions stay what they are. -/
theorem Parted.plainRegion_other (h : Parted s t v d) (hs : s.WellFormed P) {z : Name}
    (hz : s.partition.Rep z z) (hzb : z ≠ d.before) : t.plainRegion z = s.plainRegion z := by
  apply plainRegion_congr _ (h.record_of_rep hs hz (.inr ⟨hzb, rfl⟩))
  intro x
  constructor
  · intro hx
    have hxv : x ≠ v := by
      rintro rfl
      obtain rfl := h.partition.rep_self hx
      exact hzb (hz.unique h.partition.before)
    obtain ⟨z', hz', ⟨rfl, hafter⟩ | ⟨-, rfl⟩⟩ := (h.partition.rep_of_ne hxv z).1 hx
    · exact absurd (h.partition.eq_before hafter hz) hzb
    · exact hz'
  · intro hx
    have hxv : x ≠ v := by
      rintro rfl
      exact hzb (hx.unique h.partition.before)
    exact (h.partition.rep_of_ne hxv z).2 ⟨z, hx, .inr ⟨hzb, rfl⟩⟩

theorem Parted.plain (h : Parted s t v d) (hs : s.WellFormed P) (ht : t.partition.WellFormed) :
    t.plain = s.plain.redefine v := by
  -- the classes without `v` are those of other representatives
  have hout : ∀ {z}, s.partition.Rep z z → (v ∉ (s.plainRegion z).members ↔ z ≠ d.before) := by
    intro z hz
    constructor
    · rintro hv rfl
      exact hv h.partition.before
    · intro hzb hv
      exact hzb ((mem_plainRegion.1 hv).unique h.partition.before)
  apply PlainRegions.ext_classes
  intro R
  constructor
  · rintro ⟨y, hy, rfl⟩
    rcases (h.partition.rep y y).1 hy with ⟨rfl, -⟩ | ⟨hyv, hyb, hafter⟩ | ⟨-, hyy, hyb⟩
    · exact .inr (.inr (h.plainRegion_self hs))
    · refine .inr (.inl ⟨s.plainRegion d.before, ⟨d.before, h.partition.before.self, rfl⟩,
        h.partition.before, ?_, h.plainRegion_after hs hafter⟩)
      intro hone
      have hmem : y ∈ (s.plainRegion d.before).members := hyb
      rw [hone] at hmem
      exact hyv hmem
    · rw [h.plainRegion_other hs hyy hyb]
      exact .inl ⟨⟨y, hyy, rfl⟩, (hout hyy).2 hyb⟩
  · rintro (⟨⟨z, hz, rfl⟩, hv⟩ | ⟨S, ⟨z, hz, rfl⟩, hv, hne, rfl⟩ | rfl)
    · have hzb := (hout hz).1 hv
      have hzv : z ≠ v := by
        rintro rfl
        exact hv hz
      exact ⟨z, (h.partition.rep z z).2 (.inr (.inr ⟨hzv, hz, hzb⟩)),
        (h.plainRegion_other hs hz hzb).symm⟩
    · obtain rfl : z = d.before := (mem_plainRegion.1 hv).unique h.partition.before
      -- another member is left, and it has a representative
      have hmore := (Set.eq_singleton_or_nontrivial hv).resolve_left hne
      obtain ⟨x, hx, hxv⟩ := hmore.exists_ne v
      have hx := mem_plainRegion.1 hx
      obtain ⟨y, hy⟩ := ht.rep x (h.partition.names ▸ hx.mem_names)
      obtain ⟨z, hz, ⟨-, hafter⟩ | ⟨hzb, -⟩⟩ := (h.partition.rep_of_ne hxv y).1 hy
      · exact ⟨y, hy.self, (h.plainRegion_after hs hafter).symm⟩
      · exact absurd (hz.unique hx) hzb
    · exact ⟨v, (h.partition.rep v v).2 (.inl ⟨rfl, rfl⟩), (h.plainRegion_self hs).symm⟩

end Parted

/-- Defining a name anew moves it to a class of its own. -/
theorem redefine_plain (hs : s.WellFormed P) (v : Name) :
    ∃ t, s.redefine v = .ok t ∧ t.WellFormed P ∧ t.plain = s.plain.redefine v := by
  by_cases hv : v ∈ s.names
  · obtain ⟨t, d, hok, htp, h⟩ := redefine_parted hs hv
    exact ⟨t, hok, h.wellFormed hs htp, h.plain hs htp⟩
  · have hun : ¬ s.isTracked v = true := fun h => hv (isTracked_iff.1 h)
    refine ⟨s.track v, by rw [redefine, if_neg hun], wellFormed_track hs v, ?_⟩
    have hno : ¬ s.plain.Tracks v := fun h => hv ((tracks_plain hs.partition).1 h)
    rw [plain_track hs]
    apply PlainRegions.ext_classes
    intro R
    constructor
    · rintro (hR | ⟨-, hR⟩)
      · exact .inl ⟨hR, fun hvR => hno ⟨R, hR, hvR⟩⟩
      · exact .inr (.inr hR)
    · rintro (⟨hR, -⟩ | ⟨S, hS, hvS, -⟩ | hR)
      · exact .inl hR
      · exact absurd ⟨S, hS, hvS⟩ hno
      · exact .inr ⟨hno, hR⟩

-- ============================================================================
-- Uniting
-- ============================================================================

/-- What the records taken out have at a point is merged into one site. -/
theorem takeRecords_merges {records : Table Name Record} {acc : Record}
    {E : Int × Int → PlainSite → Prop} (hrec : ∀ k r, records.get? k = some r → r.Proper)
    (hacc : acc.Proper) (hE : Merges E acc.siteMap) (vs : List Name) :
    Merges (fun k y => E k y ∨ ∃ v ∈ vs, ∃ r, records.get? v = some r ∧ r.siteMap k = some y)
      (takeRecords records acc vs).1.siteMap := by
  induction vs generalizing records acc E with
  | nil =>
    apply hE.congr
    intro k y
    simp
  | cons v vs ih =>
    cases hv : records.get? v with
    | none =>
      rw [takeRecords, hv]
      apply (ih hrec hacc hE).congr
      intro k y
      simp [hv]
    | some r =>
      have hr := hrec v r hv
      have hrec' : ∀ k r', (records.erase v).get? k = some r' → r'.Proper := by
        intro k r' h
        rw [Table.get?_erase] at h
        split at h
        · cases h
        · exact hrec k r' h
      have hmerge : Merges (fun k y => E k y ∨ r.siteMap k = some y) (acc.merge r).siteMap := by
        rw [Record.siteMap_merge hacc hr]
        exact hE.merge (merges_self r.siteMap)
      rw [takeRecords, hv]
      apply (ih hrec' (Record.proper_merge hacc hr) hmerge).congr
      intro k y
      constructor
      · rintro ((h | h) | ⟨w, hw, r', hr', h⟩)
        · exact .inl h
        · exact .inr ⟨v, List.mem_cons_self, r, hv, h⟩
        · rw [Table.get?_erase] at hr'
          split at hr'
          · cases hr'
          · exact .inr ⟨w, List.mem_cons_of_mem _ hw, r', hr', h⟩
      · rintro (h | ⟨w, hw, r', hr', h⟩)
        · exact .inl (.inl h)
        · by_cases hwv : v = w
          · subst hwv
            rw [← Option.some.inj (hv.symm.trans hr')] at h
            exact .inl (.inr h)
          · have hw : w ∈ vs := (List.mem_cons.1 hw).resolve_left (Ne.symm hwv)
            exact .inr ⟨w, hw, r', by rw [Table.get?_erase, if_neg hwv, hr'], h⟩

theorem siteMap_recordAt {r : Name} {k : Int × Int} {y : PlainSite} :
    (s.recordAt r).siteMap k = some y ↔
      ∃ rec, s.records.get? r = some rec ∧ rec.siteMap k = some y := by
  cases h : s.records.get? r with
  | none => simp [recordAt, h, Record.siteMap_empty, SiteMap.empty]
  | some rec => simp [recordAt, h]

section Merged

variable {vs : List Name} {top : Name} {out : Record}

theorem Merged.recordAt_top (h : Merged s t vs top out) : t.recordAt top = out := by
  by_cases hout : out.transferred = true
  · rw [recordAt, (h.recordTop out).2 ⟨rfl, hout⟩]
    rfl
  · have hnone : t.records.get? top = none := by
      cases hget : t.records.get? top with
      | none => rfl
      | some rec => exact absurd ((h.recordTop rec).1 hget).2 hout
    rw [recordAt, hnone, Record.eq_empty_of_not_transferred hout]
    rfl

/-- Regions in which none of the names are stay what they are. -/
theorem Merged.plainRegion_other (h : Merged s t vs top out) {z : Name}
    (hz : ¬ ∃ v ∈ vs, s.partition.Rep v z) : t.plainRegion z = s.plainRegion z := by
  have hne : z ≠ top := by
    rintro rfl
    exact hz h.partition.among
  have hrecord : t.records.get? z = s.records.get? z := by
    apply Option.ext
    intro rec
    rw [h.record z hne rec]
    exact ⟨And.right, fun hrec => ⟨hz, hrec⟩⟩
  apply plainRegion_congr _ hrecord
  intro x
  rw [h.partition.rep]
  constructor
  · rintro ⟨z', hx, ⟨-, rfl⟩ | ⟨-, rfl⟩⟩
    · exact absurd rfl hne
    · exact hx
  · intro hx
    exact ⟨z, hx, .inr ⟨hz, rfl⟩⟩

/-- The region of a union has the members of all regions that were united. -/
theorem Merged.members_top (h : Merged s t vs top out) (x : Name) :
    t.partition.Rep x top ↔ ∃ z, (∃ v ∈ vs, s.partition.Rep v z) ∧ s.partition.Rep x z := by
  rw [h.partition.rep]
  constructor
  · rintro ⟨z, hx, ⟨hz, -⟩ | ⟨hz, rfl⟩⟩
    · exact ⟨z, hz, hx⟩
    · exact absurd h.partition.among hz
  · rintro ⟨z, hz, hx⟩
    exact ⟨z, hx, .inl ⟨hz, rfl⟩⟩

theorem Merged.unites (h : Merged s t vs top out)
    (hsites : Merges (fun k y => ∃ z, (∃ v ∈ vs, s.partition.Rep v z) ∧
      (s.recordAt z).siteMap k = some y) out.siteMap) :
    s.plain.Unites {v | v ∈ vs} t.plain := by
  have hself : ∀ {z}, (∃ v ∈ vs, s.partition.Rep v z) → s.partition.Rep z z := by
    rintro z ⟨v, -, hvz⟩
    exact hvz.self
  refine ⟨t.plainRegion top, ?_, ?_, ?_⟩
  · ext x
    rw [plainRegion, Partition.mem_region, h.members_top]
    constructor
    · rintro ⟨z, hz, hx⟩
      exact ⟨s.plainRegion z, ⟨z, hself hz, rfl⟩, hz, hx⟩
    · rintro ⟨R, ⟨z, -, rfl⟩, hz, hx⟩
      exact ⟨z, hz, hx⟩
  · rw [plainRegion, h.recordAt_top]
    apply hsites.congr
    intro k y
    constructor
    · rintro ⟨z, hz, hy⟩
      exact ⟨s.plainRegion z, ⟨z, hself hz, rfl⟩, hz, hy⟩
    · rintro ⟨R, ⟨z, -, rfl⟩, hz, hy⟩
      exact ⟨z, hz, hy⟩
  · intro R
    constructor
    · rintro ⟨y, hy, rfl⟩
      obtain ⟨z, hz, ⟨-, rfl⟩ | ⟨hno, rfl⟩⟩ := (h.partition.rep y y).1 hy
      · exact .inr rfl
      · rw [h.plainRegion_other hno]
        exact .inl ⟨⟨y, hz, rfl⟩, hno⟩
    · rintro (⟨⟨z, hz, rfl⟩, hno⟩ | rfl)
      · exact ⟨z, (h.partition.rep z z).2 ⟨z, hz, .inr ⟨hno, rfl⟩⟩, (h.plainRegion_other hno).symm⟩
      · obtain ⟨v, hv, htop⟩ := h.partition.among
        exact ⟨top, (h.members_top top).2 ⟨top, ⟨v, hv, htop⟩, htop.self⟩, rfl⟩

end Merged

/-- A union unites classes and merges their sites. -/
theorem union_plain (hP : Site.Closed P) (hs : s.WellFormed P) {first : Name} {others : List Name}
    (hvs : ∀ v ∈ first :: others, v ∈ s.names) :
    ∃ top t, s.union first others = .ok (top, t) ∧ t.WellFormed P ∧
      s.plain.Unites {v | v ∈ first :: others} t.plain := by
  obtain ⟨top, t, out, keys, hok, htp, hproper, hPout, hout, hkeys, h⟩ := union_merged hP hs hvs
  refine ⟨top, t, hok, h.wellFormed hs htp hproper hPout, h.unites ?_⟩
  have htaken := takeRecords_merges (fun k r hr => (hs.records k r hr).2.proper)
    Record.proper_empty merges_empty keys
  rw [← hout] at htaken
  apply htaken.congr
  intro k y
  simp only [false_or, hkeys, ← siteMap_recordAt]

-- ============================================================================
-- Marking
-- ============================================================================

/-- A record put in place of another is that of one class. -/
theorem mem_plain_put {r : Name} (hr : s.partition.Rep v r) (rec : Record) (R : PlainRegion) :
    R ∈ (s.put r rec).plain.classes ↔ (R ∈ s.plain.classes ∧ v ∉ R.members) ∨
      ∃ S ∈ s.plain.classes, v ∈ S.members ∧ R = ⟨S.members, rec.siteMap⟩ := by
  have hself : (s.put r rec).plainRegion r = ⟨(s.plainRegion r).members, rec.siteMap⟩ := by
    rw [plainRegion, recordAt_put, if_pos rfl]
    rfl
  have hother : ∀ {z}, z ≠ r → (s.put r rec).plainRegion z = s.plainRegion z := by
    intro z hz
    rw [plainRegion, recordAt_put, if_neg (Ne.symm hz)]
    rfl
  constructor
  · rintro ⟨z, hz, rfl⟩
    by_cases hzr : z = r
    · subst hzr
      exact .inr ⟨s.plainRegion z, ⟨z, hz, rfl⟩, hr, hself⟩
    · rw [hother hzr]
      refine .inl ⟨⟨z, hz, rfl⟩, ?_⟩
      intro hv
      exact hzr ((mem_plainRegion.1 hv).unique hr)
  · rintro (⟨⟨z, hz, rfl⟩, hv⟩ | ⟨S, ⟨z, hz, rfl⟩, hv, rfl⟩)
    · have hzr : z ≠ r := by
        rintro rfl
        exact hv hr
      exact ⟨z, hz, (hother hzr).symm⟩
    · obtain rfl := hr.unique (mem_plainRegion.1 hv)
      exact ⟨r, hz, hself.symm⟩

/-- Marking a name adds a site to its class. -/
theorem mark_plain (hP : Site.Closed P) (hs : s.WellFormed P) (hv : v ∈ s.names) {x : Site}
    (hx : P x) : ∃ t, s.mark v x = .ok t ∧ t.WellFormed P ∧ t.plain = s.plain.mark v x := by
  obtain ⟨t, hok, ht, -⟩ := mark_spec hP hs hv hx
  refine ⟨t, hok, ht, ?_⟩
  obtain ⟨⟨r, u⟩, hf, hput⟩ := ok_of_bind hok
  obtain ⟨hr, hu⟩ := find_ok hs.partition hf
  obtain rfl := Except.ok.inj hput
  have hsites : ((u.recordAt r).withSite x).siteMap = (s.recordAt r).siteMap.merge (.single x) := by
    rw [Record.withSite, hu.recordAt, Record.siteMap_merge (proper_recordAt hs r)
      (Record.proper_singleton x), Record.siteMap_singleton]
  apply PlainRegions.ext_classes
  intro R
  rw [mem_plain_put ((hu.partition.rep v r).2 hr), hu.plain, hsites]
  -- the class of `v` is that of its representative
  apply or_congr Iff.rfl
  rw [exists_plain (Q := fun S => R = ⟨S.members, _⟩),
    exists_plain (Q := fun S => R = ⟨S.members, S.sites.merge (.single x)⟩)]
  apply exists_congr
  intro z
  apply and_congr_right
  intro hz
  rw [hr.unique hz]
  rfl

-- ============================================================================
-- Joining
-- ============================================================================

/-- One record is merged into that of the region that holds its name. -/
theorem put_merges {E : Name → Int × Int → PlainSite → Prop}
    (hproper : ∀ r, (s.recordAt r).Proper) (hE : ∀ r, Merges (E r) (s.recordAt r).siteMap)
    {rec : Record} (hrec : rec.Proper) {z : Name} (hz : s.partition.Rep v z) (r : Name) :
    ((s.put z ((s.recordAt z).merge rec)).recordAt r).Proper ∧
      Merges (fun k y => E r k y ∨ (s.partition.Rep v r ∧ rec.siteMap k = some y))
        ((s.put z ((s.recordAt z).merge rec)).recordAt r).siteMap := by
  by_cases hzr : z = r
  · subst hzr
    rw [recordAt_put, if_pos rfl]
    refine ⟨Record.proper_merge (hproper z) hrec, ?_⟩
    rw [Record.siteMap_merge (hproper z) hrec]
    apply ((hE z).merge (merges_self rec.siteMap)).congr
    intro k y
    simp only [hz, true_and]
  · rw [recordAt_put, if_neg hzr]
    refine ⟨hproper r, (hE r).congr ?_⟩
    intro k y
    have hno : ¬ s.partition.Rep v r := fun hr => hzr (hz.unique hr)
    simp only [hno, false_and, or_false]

/-- Records are merged into those of the regions that hold their names. -/
theorem carryRecords_merges {E : Name → Int × Int → PlainSite → Prop}
    (hs : s.partition.WellFormed) (hproper : ∀ r, (s.recordAt r).Proper)
    (hE : ∀ r, Merges (E r) (s.recordAt r).siteMap) {l : List (Name × Record)}
    (hl : ∀ e ∈ l, e.2.Proper) (h : s.carryRecords l = .ok t) (r : Name) :
    Merges (fun k y => E r k y ∨ ∃ e ∈ l, s.partition.Rep e.1 r ∧ e.2.siteMap k = some y)
      (t.recordAt r).siteMap := by
  induction l generalizing s E with
  | nil =>
    obtain rfl := Except.ok.inj h
    apply (hE r).congr
    intro k y
    simp
  | cons e l ih =>
    obtain ⟨v, rec⟩ := e
    have hrec : rec.Proper := hl (v, rec) List.mem_cons_self
    have hl' : ∀ e ∈ l, e.2.Proper := fun e he => hl e (List.mem_cons_of_mem _ he)
    rw [carryRecords] at h
    split at h
    · obtain ⟨⟨z, u⟩, hf, h⟩ := ok_of_bind h
      obtain ⟨hz, hu⟩ := find_ok hs hf
      have hput := put_merges (s := u) (fun r => by rw [hu.recordAt]; exact hproper r)
        (fun r => by rw [hu.recordAt]; exact hE r) hrec ((hu.partition.rep v z).2 hz)
      have hrest := ih (s := u.put z ((u.recordAt z).merge rec)) (hu.partition.wellFormed hs)
        (fun r => (hput r).1) (fun r => (hput r).2) hl' h
      apply hrest.congr
      intro k y
      have hrep : ∀ x, (u.put z ((u.recordAt z).merge rec)).partition.Rep x r ↔
          s.partition.Rep x r := fun x => hu.partition.rep x r
      simp only [hrep, hu.partition.rep, List.mem_cons, exists_eq_or_imp, or_assoc]
    · rename_i htr
      apply (ih hs hproper hE hl' h).congr
      intro k y
      -- a record without sites adds none
      have hempty : rec = Record.empty := Record.eq_empty_of_not_transferred htr
      simp [hempty, Record.siteMap_empty, SiteMap.empty]

theorem links_iff_linked (hs : s.WellFormed P) {a b : Name} :
    s.plain.Links a b ↔ s.view.linked a b := by
  rw [links_plain, view_linked hs]

/-- Names are linked in a join as far as the links of the two states connect
    them. -/
theorem join_links {u : Regions} (hs : s.WellFormed P) (ht : t.WellFormed P) (hu : u.WellFormed P)
    (hjoin : View.IsJoin {s.view, t.view} u.view) (a b : Name) :
    u.plain.Links a b ↔
      Relation.TransGen (fun a b => s.plain.Links a b ∨ t.plain.Links a b) a b := by
  have hlaws := lawful_view hs
  have hlawt := lawful_view ht
  have hlawu := lawful_view hu
  simp only [links_iff_linked hs, links_iff_linked ht, links_iff_linked hu]
  constructor
  · intro hab
    have hle : u.view ≤ s.view.connect t.view := by
      apply hjoin.least _ (View.lawful_connect hlaws hlawt)
      rintro B (rfl | rfl)
      · exact View.le_connect_left hlaws
      · exact View.le_connect_right hlawt
    exact hle.linked a b hab
  · have hstep : ∀ {a b}, s.view.linked a b ∨ t.view.linked a b → u.view.linked a b := by
      rintro a b (h | h)
      · exact (hjoin.upper s.view (.inl rfl)).linked a b h
      · exact (hjoin.upper t.view (.inr rfl)).linked a b h
    intro hab
    induction hab with
    | single h => exact hstep h
    | tail _ h ih => exact hlawu.trans ih (hstep h)

/-- A class of a state is inside one of the join if a member of it is. -/
theorem region_subset_join {u : Regions} (hu : u.WellFormed P) (hle : s.view ≤ u.view)
    (hs : s.WellFormed P) {z r : Name} (hz : s.partition.Rep z z) :
    (s.plainRegion z).members ⊆ (u.plainRegion r).members ↔ u.partition.Rep z r := by
  constructor
  · intro hsub
    exact hsub hz
  · intro hr x hx
    have hx : s.partition.Rep x z := hx
    have hlinked := hle.linked x z ((view_linked hs x z).2 ⟨z, hx, hz⟩)
    obtain ⟨r', hxr, hzr⟩ := (view_linked hu x z).1 hlinked
    rw [hr.unique hzr]
    exact hxr

/-- The sites of a class of the join are those of the classes inside it. -/
theorem join_sites {u : Regions} (hs : s.WellFormed P) (ht : t.WellFormed P) (hu : u.WellFormed P)
    (hjoin : View.IsJoin {s.view, t.view} u.view) (hok : s.join t = .ok u) (r : Name) :
    Merges (fun k y => ∃ R, (R ∈ s.plain.classes ∨ R ∈ t.plain.classes) ∧
      R.members ⊆ (u.plainRegion r).members ∧ R.sites k = some y) (u.plainRegion r).sites := by
  obtain ⟨q, hqwf, -, hok⟩ := join_eq hs.partition ht.partition hok
  have hqu : q.Alike u.partition := carryRecords_alike (s := ⟨q, {}⟩) hqwf hok
  have hproper : ∀ e ∈ s.records.entries ++ t.records.entries, e.2.Proper := by
    intro e he
    rcases List.mem_append.1 he with he | he
    · exact (hs.records e.1 e.2 ((Table.mem_entries_iff _ _ _).1 he)).2.proper
    · exact (ht.records e.1 e.2 ((Table.mem_entries_iff _ _ _).1 he)).2.proper
  have hcarried := carryRecords_merges (s := ⟨q, {}⟩) hqwf (fun _ => Record.proper_empty)
    (fun _ => merges_empty) hproper hok r
  apply hcarried.congr
  intro k y
  -- an entry is the record of one class of its state
  have hstate : ∀ {w : Regions}, w.WellFormed P → w.view ≤ u.view →
      ((∃ e ∈ w.records.entries, q.Rep e.1 r ∧ e.2.siteMap k = some y) ↔
        ∃ R ∈ w.plain.classes, R.members ⊆ (u.plainRegion r).members ∧ R.sites k = some y) := by
    intro w hw hle
    constructor
    · rintro ⟨⟨z, rec⟩, he, hz, hy⟩
      have hget := (Table.mem_entries_iff _ _ _).1 he
      have hself := (hw.records z rec hget).1
      exact ⟨w.plainRegion z, ⟨z, hself, rfl⟩,
        (region_subset_join hu hle hw hself).2 ((hqu.rep z r).2 hz),
        siteMap_recordAt.2 ⟨rec, hget, hy⟩⟩
    · rintro ⟨R, ⟨z, hself, rfl⟩, hsub, hy⟩
      obtain ⟨rec, hget, hy⟩ := siteMap_recordAt.1 hy
      exact ⟨(z, rec), (Table.mem_entries_iff _ _ _).2 hget,
        (hqu.rep z r).1 ((region_subset_join hu hle hw hself).1 hsub), hy⟩
  simp only [false_or, List.mem_append, or_and_right, exists_or]
  rw [hstate hs (hjoin.upper s.view (.inl rfl)), hstate ht (hjoin.upper t.view (.inr rfl))]

/-- A join connects the classes of both states. -/
theorem join_plain (hP : Site.Closed P) (hs : s.WellFormed P) (ht : t.WellFormed P) :
    ∃ u, s.join t = .ok u ∧ u.WellFormed P ∧ s.plain.Joins t.plain u.plain := by
  obtain ⟨u, hok, hu, hjoin⟩ := join_spec hP hs ht
  refine ⟨u, hok, hu, join_links hs ht hu hjoin, ?_⟩
  rintro U ⟨r, -, rfl⟩
  exact join_sites hs ht hu hjoin hok r

-- ============================================================================
-- Asking
-- ============================================================================

theorem sameRegion_alike (hs : s.partition.WellFormed) {a b : Name} {answer : Bool}
    (h : s.sameRegion a b = .ok (answer, t)) : Alike s t := by
  obtain ⟨⟨same, p⟩, hsame, h⟩ := ok_of_bind h
  obtain ⟨⟨ra, pa⟩, ha, hsame⟩ := ok_of_bind hsame
  obtain ⟨⟨rb, pb⟩, hb, hsame⟩ := ok_of_bind hsame
  obtain ⟨-, rfl⟩ := Prod.mk.inj (Except.ok.inj hsame)
  obtain ⟨-, rfl⟩ := Prod.mk.inj (Except.ok.inj h)
  have hpa := (Partition.find_ok hs ha).2
  have hpb := (Partition.find_ok (hpa.wellFormed hs) hb).2
  exact ⟨hpa.trans hpb, rfl⟩

theorem isTransferred_alike (hs : s.WellFormed P) {answer : Bool}
    (h : s.isTransferred v = .ok (answer, t)) : Alike s t := by
  by_cases hv : v ∈ s.names
  · obtain ⟨r, t', hok, -, ht⟩ := isTransferred_spec hs hv
    obtain ⟨-, rfl⟩ := Prod.mk.inj (Except.ok.inj (hok.symm.trans h))
    exact ht
  · obtain ⟨-, rfl⟩ := Prod.mk.inj (Except.ok.inj ((isTransferred_untracked hv).symm.trans h))
    exact Alike.refl s

theorem sitesFor_alike (hs : s.WellFormed P) {l : List Site} (h : s.sitesFor v = .ok (l, t)) :
    Alike s t := by
  by_cases hv : v ∈ s.names
  · obtain ⟨r, t', hok, -, ht⟩ := sitesFor_spec hs hv
    obtain ⟨-, rfl⟩ := Prod.mk.inj (Except.ok.inj (hok.symm.trans h))
    exact ht
  · obtain ⟨-, rfl⟩ := Prod.mk.inj (Except.ok.inj ((sitesFor_untracked hv).symm.trans h))
    exact Alike.refl s

/-- Asking changes no later answer. -/
theorem Answers.of_alike {A : PlainRegions} (h : s.Answers A) (hs : s.WellFormed P)
    (ht : Alike s t) : t.Answers A := by
  rw [answers_iff (ht.wellFormed hs), ht.plain]
  exact (answers_iff hs).1 h

-- ============================================================================
-- Changes refine changes of classes
-- ============================================================================

/-- The answers about every state that changes lead to are those of one family
    of classes. A change of the state changes the classes as it is stated for
    them, and asking does not change them. -/
theorem changes_refine (h : s.Built fun _ => True) :
    (∃ A, ∀ B, s.Answers B ↔ B = A) ∧ empty.Answers .empty ∧ ∀ A, s.Answers A →
      (∀ v, (s.track v).Answers (A.track v)) ∧
      (∀ v, ∃ t, s.redefine v = .ok t ∧ t.Answers (A.redefine v)) ∧
      (∀ first others, (∀ v ∈ first :: others, A.Tracks v) →
        ∃ top t B, s.union first others = .ok (top, t) ∧
          A.Unites {v | v ∈ first :: others} B ∧ t.Answers B) ∧
      (∀ v x, A.Tracks v → ∃ t, s.mark v x = .ok t ∧ t.Answers (A.mark v x)) ∧
      (∀ (u : Regions) B, u.Built (fun _ => True) → u.Answers B →
        ∃ t C, s.join u = .ok t ∧ A.Joins B C ∧ t.Answers C) ∧
      (∀ a b answer t, s.sameRegion a b = .ok (answer, t) → t.Answers A) ∧
      (∀ v answer t, s.isTransferred v = .ok (answer, t) → t.Answers A) ∧
      ∀ v l t, s.sitesFor v = .ok (l, t) → t.Answers A := by
  have hP := Site.closed_true
  have hs := h.wellFormed hP
  refine ⟨⟨s.plain, fun B => answers_iff hs⟩, ?_, ?_⟩
  · rw [answers_iff (wellFormed_empty (P := fun _ => True))]
    apply PlainRegions.ext_classes
    intro R
    refine iff_of_false id ?_
    rintro ⟨r, hr, -⟩
    cases hr.mem_names
  intro A hA
  have htracks : ∀ {w}, A.Tracks w → w ∈ s.names := by
    intro w hw
    exact isTracked_iff.1 ((hA.isTracked w).2 hw)
  obtain rfl := (answers_iff hs).1 hA
  refine ⟨?_, ?_, ?_, ?_, ?_, ?_, ?_, ?_⟩
  · intro v
    rw [← plain_track hs]
    exact answers_plain (wellFormed_track hs v)
  · intro v
    obtain ⟨t, hok, ht, hplain⟩ := redefine_plain hs v
    exact ⟨t, hok, hplain ▸ answers_plain ht⟩
  · intro first others hvs
    obtain ⟨top, t, hok, ht, hunites⟩ := union_plain hP hs fun v hv => htracks (hvs v hv)
    exact ⟨top, t, t.plain, hok, hunites, answers_plain ht⟩
  · intro v x hv
    have hx : (fun _ : Site => True) x := trivial
    obtain ⟨t, hok, ht, hplain⟩ := mark_plain hP hs (htracks hv) hx
    exact ⟨t, hok, hplain ▸ answers_plain ht⟩
  · intro u B hu hB
    have hu := hu.wellFormed hP
    obtain rfl := (answers_iff hu).1 hB
    obtain ⟨t, hok, ht, hjoins⟩ := join_plain hP hs hu
    exact ⟨t, t.plain, hok, hjoins, answers_plain ht⟩
  · intro a b answer t hok
    exact hA.of_alike hs (sameRegion_alike hs.partition hok)
  · intro v answer t hok
    exact hA.of_alike hs (isTransferred_alike hs hok)
  · intro v l t hok
    exact hA.of_alike hs (sitesFor_alike hs hok)

/-- What is left of the region stays together, and can be united with the name
    that left it. -/
theorem renewed_refines : ∃ s A, renewed = .ok s ∧ s.Answers A ∧ A.Links "b" "c" ∧
    ¬ A.Links "a" "c" ∧ ∃ top t B, s.union "a" ["c"] = .ok (top, t) ∧
      A.Unites {v | v ∈ (["a", "c"] : List Name)} B ∧ t.Answers B := by
  have hsome : renewed.toOption.isSome = true := by decide +kernel
  obtain ⟨s, hs⟩ := exists_ok_of_isSome hsome
  have hnames : (renewed.map Regions.names) = .ok ["a", "b", "c"] := by decide +kernel
  have hbc : (renewed.bind fun s => (s.sameRegion "b" "c").map Prod.fst) = .ok true := by
    decide +kernel
  have hac : (renewed.bind fun s => (s.sameRegion "a" "c").map Prod.fst) = .ok false := by
    decide +kernel
  rw [hs] at hnames hbc hac
  have hnames : s.names = ["a", "b", "c"] := Except.ok.inj hnames
  obtain ⟨⟨A, hA⟩, -, hchanges⟩ := changes_refine (built_renewed hs)
  have hA : s.Answers A := (hA A).2 rfl
  obtain ⟨-, -, hunion, -⟩ := hchanges A hA
  have htracks : ∀ {v}, v ∈ s.names → A.Tracks v := by
    intro v hv
    rw [← hA.isTracked, isTracked_iff]
    exact hv
  -- the answers of the queries tell what the classes are
  have hlinks : ∀ {a b answer}, a ∈ s.names → b ∈ s.names →
      (s.sameRegion a b).map Prod.fst = .ok answer → (A.Links a b ↔ answer = true) := by
    intro a b answer ha hb hanswer
    obtain ⟨answer', t, hok, hiff⟩ := hA.sameRegion a b (htracks ha) (htracks hb)
    rw [hok] at hanswer
    rw [← hiff, ← Except.ok.inj hanswer]
  have htogether := hlinks (by simp [hnames]) (by simp [hnames]) hbc
  have hapart := hlinks (by simp [hnames]) (by simp [hnames]) hac
  refine ⟨s, A, hs, hA, htogether.2 rfl, fun h => Bool.false_ne_true (hapart.1 h),
    hunion "a" ["c"] ?_⟩
  intro v hv
  apply htracks
  rw [hnames]
  rcases List.mem_pair.1 hv with rfl | rfl
  · simp
  · simp

end Regions

end Sendability
