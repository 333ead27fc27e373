/-
  What the changes of a state do to its view.

  On a well-formed state every change succeeds on tracked names, keeps the
  state well formed, and its view afterwards is the change of the view:

    * `track`     -- `View.track`
    * `redefine`  -- `View.redefine`
    * `union`     -- `View.unite`
    * `mark`      -- `View.annotate`

  Records live under representatives, so the work is to follow a record to the
  representative that its region has afterwards.
-/

import Sendability.Proofs.StateView

namespace Sendability
namespace Regions

variable {P : Site → Prop} {s t : Regions} {v : Name}

-- ============================================================================
-- Tracking
-- ============================================================================

theorem wellFormed_empty : WellFormed P empty where
  partition := Partition.wellFormed_empty
  records := by
    intro r rec h
    cases h

theorem view_empty : empty.view = View.empty := by
  have hs : WellFormed (fun _ => True) empty := wellFormed_empty
  have hrep : ∀ x y, ¬ empty.partition.Rep x y := by
    intro x y h
    cases h.mem_names
  refine View.eq_of_iff ?_ ?_ ?_
  · intro v
    rw [view_tracked]
    exact iff_of_false (fun h => by cases h) id
  · intro a b
    rw [view_linked hs]
    exact iff_of_false (fun ⟨r, h, _⟩ => hrep a r h) id
  · intro v k o
    rw [view_noted hs]
    exact iff_of_false (fun ⟨r, h, _⟩ => hrep v r h) id

theorem wellFormed_track (hs : s.WellFormed P) (v : Name) : (s.track v).WellFormed P where
  partition := Partition.wellFormed_add hs.partition v
  records := by
    intro r rec h
    obtain ⟨hr, hkept⟩ := hs.records r rec h
    refine ⟨?_, hkept⟩
    by_cases hv : v ∈ s.partition.names
    · have hc : s.partition.contains v = true := (Table.contains_iff _ _).2 hv
      rw [track, Partition.add, if_pos hc]
      exact hr
    · exact (Partition.rep_add hs.partition hv r r).2 (.inl hr)

theorem view_track (hs : s.WellFormed P) (v : Name) : (s.track v).view = s.view.track v := by
  have ht := wellFormed_track hs v
  by_cases hv : v ∈ s.names
  · -- nothing changes, and a tracked name is linked to itself
    have hc : s.partition.contains v = true := (Table.contains_iff _ _).2 hv
    have heq : s.track v = s := by
      rw [track, Partition.add, if_pos hc]
    rw [heq]
    refine View.eq_of_iff ?_ ?_ (fun _ _ _ => Iff.rfl)
    · intro x
      refine ⟨.inl, ?_⟩
      rintro (h | rfl)
      · exact h
      · exact view_tracked.2 hv
    · intro a b
      refine ⟨.inl, ?_⟩
      rintro (h | ⟨rfl, rfl⟩)
      · exact h
      · exact (lawful_view hs).refl (view_tracked.2 hv)
  · have hrep := Partition.rep_add hs.partition hv
    refine View.eq_of_iff ?_ ?_ ?_
    · intro x
      rw [view_tracked, names, track, Partition.mem_names_add]
      exact or_congr_left view_tracked.symm
    · intro a b
      rw [view_linked ht]
      refine ⟨?_, ?_⟩
      · rintro ⟨r, ha, hb⟩
        rcases (hrep a r).1 ha with ha' | ⟨rfl, rfl⟩
        · rcases (hrep b r).1 hb with hb' | ⟨rfl, rfl⟩
          · exact .inl ((view_linked hs a b).2 ⟨r, ha', hb'⟩)
          · exact absurd ha'.self.mem_names hv
        · rcases (hrep b r).1 hb with hb' | ⟨hb', -⟩
          · exact absurd hb'.self.mem_names hv
          · exact .inr ⟨rfl, hb'⟩
      · rintro (h | ⟨rfl, rfl⟩)
        · obtain ⟨r, ha, hb⟩ := (view_linked hs a b).1 h
          exact ⟨r, (hrep a r).2 (.inl ha), (hrep b r).2 (.inl hb)⟩
        · exact ⟨b, (hrep b b).2 (.inr ⟨rfl, rfl⟩), (hrep b b).2 (.inr ⟨rfl, rfl⟩)⟩
    · intro x k o
      rw [view_noted ht]
      refine ⟨?_, ?_⟩
      · rintro ⟨r, hr, hn⟩
        rcases (hrep x r).1 hr with hr | ⟨rfl, rfl⟩
        · exact (view_noted hs x k o).2 ⟨r, hr, hn⟩
        · -- a name that was not tracked has no record
          obtain ⟨rec, hrec, -⟩ := (notes_recordAt s r k o).1 hn
          exact absurd (hs.records r rec hrec).1.mem_names hv
      · intro h
        obtain ⟨r, hr, hn⟩ := (view_noted hs x k o).1 h
        exact ⟨r, (hrep x r).2 (.inl hr), hn⟩

/-- Tracking some names one by one. -/
theorem foldl_track_spec (hs : s.WellFormed P) (vs : List Name) :
    (vs.foldl track s).WellFormed P ∧
      (∀ v, v ∈ (vs.foldl track s).names ↔ v ∈ s.names ∨ v ∈ vs) ∧
      ∀ U : View, U.Lawful → s.view ≤ U → (∀ v ∈ vs, U.tracked v) →
        (vs.foldl track s).view ≤ U := by
  induction vs generalizing s with
  | nil => exact ⟨hs, by simp, fun U _ h _ => h⟩
  | cons v vs ih =>
    obtain ⟨hwf, hnames, hleast⟩ := ih (wellFormed_track hs v)
    refine ⟨hwf, ?_, ?_⟩
    · intro x
      rw [List.foldl_cons, hnames, names, track, Partition.mem_names_add,
        List.mem_cons, or_assoc]
      rfl
    · intro U hU hsU hvs
      have hv : U.tracked v := hvs v (by simp)
      apply hleast U hU
      · rw [view_track hs]
        exact View.track_le hsU hU hv
      · exact fun w hw => hvs w (List.mem_cons_of_mem _ hw)

-- ============================================================================
-- Redefining
-- ============================================================================

/-- Redefining a name that is not tracked tracks it. -/
theorem track_eq_redefine {A : View} (hA : A.Lawful) (hv : ¬ A.tracked v) :
    A.track v = A.redefine v := by
  have hl : ∀ {a b}, A.linked a b → a ≠ v ∧ b ≠ v := by
    intro a b hab
    refine ⟨?_, ?_⟩
    · rintro rfl
      exact hv (hA.tracked hab)
    · rintro rfl
      exact hv (hA.tracked (hA.symm hab))
  refine View.eq_of_iff (fun _ => Iff.rfl) ?_ ?_
  · intro a b
    refine ⟨?_, ?_⟩
    · rintro (hab | h)
      · exact .inr ⟨(hl hab).1, (hl hab).2, hab⟩
      · exact .inl h
    · rintro (h | ⟨-, -, hab⟩)
      · exact .inr h
      · exact .inl hab
  · intro x k o
    refine ⟨?_, fun h => h.2⟩
    intro hn
    refine ⟨?_, hn⟩
    rintro rfl
    exact hv (hA.noted_tracked hn)

/-- The state after a tracked name was redefined: the record of its region stays
    with the rest of the region. -/
structure Parted (s t : Regions) (v : Name) (d : Partition.Detached) : Prop where
  partition : Partition.Parted s.partition t.partition v d
  records : ∀ k, t.records.get? k =
    if d.after = some k ∧ (s.records.get? d.before).isSome then s.records.get? d.before
    else if d.before = k then none else s.records.get? k

theorem redefine_parted (hs : s.WellFormed P) (hv : v ∈ s.names) :
    ∃ t d, s.redefine v = .ok t ∧ t.partition.WellFormed ∧ Parted s t v d := by
  obtain ⟨d, q, hd, hq, hparted⟩ := Partition.detach_spec hs.partition hv
  rw [redefine, if_pos (isTracked_iff.2 hv), hd]
  simp only [bind, Except.bind, pure, Except.pure]
  cases hb : s.records.get? d.before with
  | none =>
    refine ⟨_, d, rfl, hq, hparted, ?_⟩
    intro k
    simp [hb, Table.get?_erase]
  | some rec =>
    cases ha : d.after with
    | none =>
      refine ⟨_, d, rfl, hq, hparted, ?_⟩
      intro k
      simp [ha, Table.get?_erase]
    | some new =>
      refine ⟨_, d, rfl, hq, hparted, ?_⟩
      intro k
      rw [Table.get?_insert, Table.get?_erase, ha, hb]
      by_cases hk : new = k
      · simp [hk]
      · simp [hk]

section Parted

variable {d : Partition.Detached}

theorem Parted.wellFormed (h : Parted s t v d) (hs : s.WellFormed P)
    (ht : t.partition.WellFormed) : t.WellFormed P := by
  refine ⟨ht, ?_⟩
  intro r rec hr
  rw [h.records] at hr
  split at hr
  · rename_i ha
    obtain ⟨hrv, hrb⟩ := h.partition.after r ha.1
    exact ⟨(h.partition.rep r r).2 (.inr (.inl ⟨hrv, hrb, ha.1⟩)), (hs.records _ rec hr).2⟩
  · split at hr
    · cases hr
    · rename_i hne
      obtain ⟨hself, hkept⟩ := hs.records r rec hr
      refine ⟨?_, hkept⟩
      by_cases hrv : r = v
      · exact absurd (h.partition.before.unique (hrv ▸ hself)) hne
      · exact (h.partition.rep r r).2 (.inr (.inr ⟨hrv, hself, Ne.symm hne⟩))

/-- The new region has no record. -/
theorem Parted.record_self (h : Parted s t v d) (hs : s.WellFormed P) : t.records.get? v = none := by
  have hafter : ¬ (d.after = some v ∧ (s.records.get? d.before).isSome) := by
    rintro ⟨ha, -⟩
    exact (h.partition.after v ha).1 rfl
  rw [h.records, if_neg hafter]
  split
  · rfl
  · rename_i hne
    cases hv : s.records.get? v with
    | none => rfl
    | some rec => exact absurd (h.partition.before.unique (hs.records v rec hv).1) hne

/-- The record of a region goes where its representative goes. -/
theorem Parted.record_of_rep (h : Parted s t v d) (hs : s.WellFormed P) {z y : Name}
    (hz : s.partition.Rep z z)
    (hyz : (z = d.before ∧ d.after = some y) ∨ (z ≠ d.before ∧ y = z)) :
    t.records.get? y = s.records.get? z := by
  rw [h.records]
  rcases hyz with ⟨rfl, hay⟩ | ⟨hzb, rfl⟩
  · cases hb : s.records.get? d.before with
    | some rec => rw [if_pos ⟨hay, rfl⟩]
    | none =>
      rw [if_neg (by simp)]
      split
      · rfl
      · rename_i hne
        cases hy : s.records.get? y with
        | none => rfl
        | some rec => exact absurd (h.partition.eq_before hay (hs.records y rec hy).1).symm hne
  · have hafter : ¬ (d.after = some y ∧ (s.records.get? d.before).isSome) := by
      rintro ⟨ha, -⟩
      exact hzb (h.partition.eq_before ha hz)
    rw [if_neg hafter, if_neg (Ne.symm hzb)]

theorem Parted.view (h : Parted s t v d) (hs : s.WellFormed P) (ht : t.WellFormed P) :
    t.view = s.view.redefine v := by
  refine View.eq_of_iff ?_ ?_ ?_
  · intro x
    rw [view_tracked, names, h.partition.names]
    refine ⟨fun hx => .inl (view_tracked.2 hx), ?_⟩
    rintro (hx | rfl)
    · exact view_tracked.1 hx
    · exact h.partition.before.mem_names
  · intro a b
    rw [view_linked ht, h.partition.linked ht.partition]
    simp only [View.redefine, view_linked hs]
  · intro x k o
    simp only [View.redefine, view_noted ht, view_noted hs, notes_recordAt]
    refine ⟨?_, ?_⟩
    · rintro ⟨y, hy, rec, hrec, hn⟩
      have hxv : x ≠ v := by
        rintro rfl
        rw [h.partition.rep_self hy, h.record_self hs] at hrec
        cases hrec
      obtain ⟨z, hz, hyz⟩ := (h.partition.rep_of_ne hxv y).1 hy
      rw [h.record_of_rep hs hz.self hyz] at hrec
      exact ⟨hxv, z, hz, rec, hrec, hn⟩
    · rintro ⟨hxv, z, hz, rec, hrec, hn⟩
      obtain ⟨y, hy⟩ := ht.partition.rep x (h.partition.names ▸ hz.mem_names)
      obtain ⟨z', hz', hyz⟩ := (h.partition.rep_of_ne hxv y).1 hy
      rw [← hz.unique hz'] at hyz
      exact ⟨y, hy, rec, by rw [h.record_of_rep hs hz.self hyz, hrec], hn⟩

end Parted

theorem redefine_spec (hs : s.WellFormed P) (v : Name) :
    ∃ t, s.redefine v = .ok t ∧ t.WellFormed P ∧ t.view = s.view.redefine v := by
  by_cases hv : v ∈ s.names
  · obtain ⟨t, d, hok, htp, h⟩ := redefine_parted hs hv
    have ht := h.wellFormed hs htp
    exact ⟨t, hok, ht, h.view hs ht⟩
  · have hun : ¬ s.isTracked v = true := fun h => hv (isTracked_iff.1 h)
    refine ⟨s.track v, by rw [redefine, if_neg hun], wellFormed_track hs v, ?_⟩
    rw [view_track hs, track_eq_redefine (lawful_view hs) (fun h => hv (view_tracked.1 h))]

-- ============================================================================
-- Uniting
-- ============================================================================

/-- What is left of the records, and what the ones taken out say together. -/
theorem takeRecords_spec (hP : Site.Closed P) {records : Table Name Record} {acc : Record}
    (hrec : ∀ k r, records.get? k = some r → r.Kept P) (hacc : acc.Proper)
    (haccP : ∀ x ∈ acc.sites, P x) (vs : List Name) :
    (∀ k, (takeRecords records acc vs).2.get? k = if k ∈ vs then none else records.get? k) ∧
    (takeRecords records acc vs).1.Proper ∧ (∀ x ∈ (takeRecords records acc vs).1.sites, P x) ∧
    ∀ k o, (takeRecords records acc vs).1.Notes k o ↔
      acc.Notes k o ∨ ∃ v ∈ vs, ∃ r, records.get? v = some r ∧ r.Notes k o := by
  induction vs generalizing records acc with
  | nil => exact ⟨by simp [takeRecords], hacc, haccP, by simp [takeRecords]⟩
  | cons v vs ih =>
    cases hv : records.get? v with
    | none =>
      obtain ⟨h1, h2, h3, h4⟩ := ih hrec hacc haccP
      have htake : takeRecords records acc (v :: vs) = takeRecords records acc vs := by
        rw [takeRecords, hv]
      rw [htake]
      refine ⟨?_, h2, h3, ?_⟩
      · intro k
        rw [h1]
        by_cases hk : k = v
        · subst hk
          simp [hv]
        · simp [hk]
      · intro k o
        rw [h4]
        simp [hv]
    | some r =>
      have hr : r.Kept P := hrec v r hv
      have hrec' : ∀ k r', (records.erase v).get? k = some r' → r'.Kept P := by
        intro k r' h
        rw [Table.get?_erase] at h
        split at h
        · cases h
        · exact hrec k r' h
      obtain ⟨h1, h2, h3, h4⟩ := ih hrec' (Record.proper_merge hacc hr.proper)
        (Record.forall_sites_merge hP hacc hr.proper haccP hr.sites)
      have htake : takeRecords records acc (v :: vs) =
          takeRecords (records.erase v) (acc.merge r) vs := by
        rw [takeRecords, hv]
      rw [htake]
      refine ⟨?_, h2, h3, ?_⟩
      · intro k
        rw [h1, Table.get?_erase]
        by_cases hk : k = v
        · subst hk
          simp
        · simp [hk, Ne.symm hk]
      · intro k o
        rw [h4, Record.notes_merge hacc hr.proper]
        refine ⟨?_, ?_⟩
        · rintro ((h | h) | ⟨w, hw, r', hr', h⟩)
          · exact .inl h
          · exact .inr ⟨v, by simp, r, hv, h⟩
          · rw [Table.get?_erase] at hr'
            split at hr'
            · cases hr'
            · exact .inr ⟨w, List.mem_cons_of_mem _ hw, r', hr', h⟩
        · rintro (h | ⟨w, hw, r', hr', h⟩)
          · exact .inl (.inl h)
          · by_cases hwv : w = v
            · subst hwv
              obtain rfl := Option.some.inj (hv.symm.trans hr')
              exact .inl (.inr h)
            · have hw' : w ∈ vs := (List.mem_cons.1 hw).resolve_left hwv
              refine .inr ⟨w, hw', r', ?_, h⟩
              rw [Table.get?_erase, if_neg (Ne.symm hwv)]
              exact hr'

/-- Names of one list meet a name exactly when they share its representative. -/
theorem meets_iff (hs : s.WellFormed P) (vs : List Name) (a : Name) :
    s.view.Meets {v | v ∈ vs} a ↔
      ∃ z, s.partition.Rep a z ∧ ∃ v ∈ vs, s.partition.Rep v z := by
  refine ⟨?_, ?_⟩
  · rintro ⟨v, hv, hav⟩
    obtain ⟨z, ha, hz⟩ := (view_linked hs a v).1 hav
    exact ⟨z, ha, v, hv, hz⟩
  · rintro ⟨z, ha, v, hv, hz⟩
    exact ⟨v, hv, (view_linked hs a v).2 ⟨z, ha, hz⟩⟩

/-- The state after a union: `out` is what the records of the united regions say
    together, and is kept under the new representative if it has sites. -/
structure Merged (s t : Regions) (vs : List Name) (top : Name) (out : Record) : Prop where
  partition : Partition.United s.partition t.partition vs top
  notes : ∀ k o, out.Notes k o ↔ ∃ v ∈ vs, ∃ z, s.partition.Rep v z ∧
    ∃ rec, s.records.get? z = some rec ∧ rec.Notes k o
  recordTop : ∀ rec, t.records.get? top = some rec ↔ rec = out ∧ out.transferred = true
  record : ∀ k, k ≠ top → ∀ rec, t.records.get? k = some rec ↔
    (¬ ∃ v ∈ vs, s.partition.Rep v k) ∧ s.records.get? k = some rec

theorem union_merged (hP : Site.Closed P) (hs : s.WellFormed P) {first : Name}
    {others : List Name} (hvs : ∀ v ∈ first :: others, v ∈ s.names) :
    ∃ top t out keys, s.union first others = .ok (top, t) ∧ t.partition.WellFormed ∧ out.Proper ∧
      (∀ x ∈ out.sites, P x) ∧ out = (takeRecords s.records Record.empty keys).1 ∧
      (∀ z, z ∈ keys ↔ ∃ v ∈ first :: others, s.partition.Rep v z) ∧
      Merged s t (first :: others) top out := by
  obtain ⟨olds, p, hfa, hp, holds⟩ := Partition.findAll_spec hs.partition hvs
  have hvs' : ∀ v ∈ first :: others, v ∈ p.names := by
    intro v hv
    rw [hp.names]
    exact hvs v hv
  obtain ⟨top, q, hun, hq, hafter⟩ := Partition.union_spec (hp.wellFormed hs.partition) hvs'
  -- looking up the representatives has shortened paths only
  have hunited := hafter.of_alike hp
  -- the records under the old representatives, which are taken out
  obtain ⟨out, hout⟩ : ∃ out, out = takeRecords s.records Record.empty (sortText (distinct olds)) :=
    ⟨_, rfl⟩
  obtain ⟨hget, hproper, hsites, hnotes⟩ := takeRecords_spec hP (fun k r h => (hs.records k r h).2)
    Record.proper_empty (by intro x hx; cases hx) (sortText (distinct olds))
  rw [← hout] at hget hproper hsites hnotes
  have hmem : ∀ z, z ∈ sortText (distinct olds) ↔ ∃ v ∈ first :: others, s.partition.Rep v z := by
    intro z
    rw [mem_sortText, mem_distinct, holds]
  obtain ⟨records, hrecords⟩ : ∃ records, records =
      if out.1.transferred then out.2.insert top out.1 else out.2 := ⟨_, rfl⟩
  have hok : s.union first others = .ok (top, ⟨q, records⟩) := by
    rw [hrecords]
    simp only [union, hfa, hun, ← hout, bind, Except.bind, pure, Except.pure]
    split
    · rfl
    · rfl
  refine ⟨top, ⟨q, records⟩, out.1, sortText (distinct olds), hok, hq, hproper, hsites, by rw [hout],
    hmem, hunited, ?_, ?_, ?_⟩
  · intro k o
    rw [hnotes]
    refine ⟨?_, ?_⟩
    · rintro (h | ⟨z, hz, rec, hrec, h⟩)
      · exact absurd h (Record.not_notes_empty k o)
      · obtain ⟨v, hv, hvz⟩ := (hmem z).1 hz
        exact ⟨v, hv, z, hvz, rec, hrec, h⟩
    · rintro ⟨v, hv, z, hvz, rec, hrec, h⟩
      exact .inr ⟨z, (hmem z).2 ⟨v, hv, hvz⟩, rec, hrec, h⟩
  · intro rec
    simp only [hrecords]
    split
    · rename_i h
      simp [h, eq_comm]
    · rename_i h
      rw [hget, if_pos ((hmem top).2 hunited.among)]
      simp [h]
  · intro k hk rec
    have hkept : records.get? k = out.2.get? k := by
      rw [hrecords]
      split
      · rw [Table.get?_insert, if_neg (Ne.symm hk)]
      · rfl
    simp only [hkept, hget, ← hmem]
    split
    · rename_i h
      simp [h]
    · rename_i h
      simp [h]

section Merged

variable {vs : List Name} {top : Name} {out : Record}

theorem Merged.wellFormed (h : Merged s t vs top out) (hs : s.WellFormed P)
    (ht : t.partition.WellFormed) (hproper : out.Proper) (hsites : ∀ x ∈ out.sites, P x) :
    t.WellFormed P := by
  refine ⟨ht, ?_⟩
  intro r rec hr
  obtain ⟨v, hv, hvtop⟩ := h.partition.among
  by_cases hrt : r = top
  · subst hrt
    obtain ⟨rfl, htr⟩ := (h.recordTop rec).1 hr
    have hself : t.partition.Rep r r :=
      (h.partition.rep r r).2 ⟨r, hvtop.self, .inl ⟨⟨v, hv, hvtop⟩, rfl⟩⟩
    exact ⟨hself, hproper, (Record.transferred_iff _).1 htr, hsites⟩
  · obtain ⟨hno, hr'⟩ := (h.record r hrt rec).1 hr
    obtain ⟨hself, hkept⟩ := hs.records r rec hr'
    exact ⟨(h.partition.rep r r).2 ⟨r, hself, .inr ⟨hno, rfl⟩⟩, hkept⟩

/-- What is said together is noted under the new representative. -/
theorem Merged.recordTop_of_notes (h : Merged s t vs top out) {k : Int × Int} {o : Option Name}
    (hn : out.Notes k o) : t.records.get? top = some out := by
  obtain ⟨x, hx, -⟩ := hn
  exact (h.recordTop out).2 ⟨rfl, (Record.transferred_iff _).2 (List.ne_nil_of_mem hx)⟩

theorem Merged.view (h : Merged s t vs top out) (hs : s.WellFormed P) (ht : t.WellFormed P) :
    t.view = s.view.unite {v | v ∈ vs} := by
  have hother : ∀ {z}, (¬ ∃ v ∈ vs, s.partition.Rep v z) → z ≠ top := by
    rintro z hz rfl
    exact hz h.partition.among
  refine View.eq_of_iff ?_ ?_ ?_
  · intro x
    rw [view_tracked, names, h.partition.names]
    exact view_tracked.symm
  · intro a b
    rw [view_linked ht]
    simp only [View.unite, meets_iff hs, view_linked hs]
    exact h.partition.linked a b
  · intro a k o
    rw [view_noted ht]
    simp only [View.unite, meets_iff hs, view_noted hs, notes_recordAt]
    refine ⟨?_, ?_⟩
    · rintro ⟨y, hy, rec, hrec, hn⟩
      obtain ⟨z, hz, ⟨hvz, rfl⟩ | ⟨hvz, rfl⟩⟩ := (h.partition.rep a y).1 hy
      · obtain ⟨rfl, -⟩ := (h.recordTop rec).1 hrec
        exact .inr ⟨⟨z, hz, hvz⟩, (h.notes k o).1 hn⟩
      · exact .inl ⟨y, hz, rec, ((h.record y (hother hvz) rec).1 hrec).2, hn⟩
    · rintro (⟨z, hz, rec, hrec, hn⟩ | ⟨⟨z, hz, hvz⟩, hn⟩)
      · by_cases hvz : ∃ v ∈ vs, s.partition.Rep v z
        · have hout : out.Notes k o := by
            obtain ⟨v, hv, hvz'⟩ := hvz
            exact (h.notes k o).2 ⟨v, hv, z, hvz', rec, hrec, hn⟩
          exact ⟨top, (h.partition.rep a top).2 ⟨z, hz, .inl ⟨hvz, rfl⟩⟩, out,
            h.recordTop_of_notes hout, hout⟩
        · exact ⟨z, (h.partition.rep a z).2 ⟨z, hz, .inr ⟨hvz, rfl⟩⟩, rec,
            (h.record z (hother hvz) rec).2 ⟨hvz, hrec⟩, hn⟩
      · have hout : out.Notes k o := (h.notes k o).2 hn
        exact ⟨top, (h.partition.rep a top).2 ⟨z, hz, .inl ⟨hvz, rfl⟩⟩, out,
          h.recordTop_of_notes hout, hout⟩

end Merged

theorem union_spec (hP : Site.Closed P) (hs : s.WellFormed P) {first : Name} {others : List Name}
    (hvs : ∀ v ∈ first :: others, v ∈ s.names) :
    ∃ top t, s.union first others = .ok (top, t) ∧ t.WellFormed P ∧
      t.view = s.view.unite {v | v ∈ first :: others} := by
  obtain ⟨top, t, out, keys, hok, htp, hproper, hsites, -, -, h⟩ := union_merged hP hs hvs
  have ht := h.wellFormed hs htp hproper hsites
  exact ⟨top, t, hok, ht, h.view hs ht⟩

/-- Uniting a list: fewer than two names change nothing, as in the view. -/
theorem unite_spec (hP : Site.Closed P) (hs : s.WellFormed P) {vs : List Name}
    (hvs : ∀ v ∈ vs, v ∈ s.names) :
    ∃ t, s.unite vs = .ok t ∧ t.WellFormed P ∧ t.view = s.view.unite {v | v ∈ vs} := by
  match vs, hvs with
  | [], _ =>
    refine ⟨s, rfl, hs, (View.unite_eq_self (lawful_view hs) ?_).symm⟩
    intro a ha
    cases ha
  | [v], hvs =>
    refine ⟨s, rfl, hs, (View.unite_eq_self (lawful_view hs) ?_).symm⟩
    intro a ha b hb
    obtain rfl := List.mem_singleton.1 ha
    obtain rfl := List.mem_singleton.1 hb
    exact (lawful_view hs).refl (view_tracked.2 (hvs b (by simp)))
  | a :: b :: rest, hvs =>
    obtain ⟨top, t, hok, ht, hview⟩ := union_spec hP hs hvs
    refine ⟨t, ?_, ht, hview⟩
    simp only [unite, hok, bind, Except.bind, pure, Except.pure]

-- ============================================================================
-- Marking
-- ============================================================================

theorem recordAt_put (s : Regions) (r : Name) (rec : Record) (z : Name) :
    (s.put r rec).recordAt z = if r = z then rec else s.recordAt z := by
  rw [recordAt, put, Table.get?_insert]
  split
  · rfl
  · rfl

/-- Merging a record into the one of a region notes what it says. -/
theorem put_merge_spec (hP : Site.Closed P) (hs : s.WellFormed P) {r : Name}
    (hr : s.partition.Rep v r) {rec : Record} (hrec : rec.Kept P) :
    (s.put r ((s.recordAt r).merge rec)).WellFormed P ∧
      (s.put r ((s.recordAt r).merge rec)).view = s.view.annotate {v} rec.Notes := by
  have hproper := proper_recordAt hs r
  have hkept : ((s.recordAt r).merge rec).Kept P := by
    refine ⟨Record.proper_merge hproper hrec.proper, ?_,
      Record.forall_sites_merge hP hproper hrec.proper (sites_recordAt hs r) hrec.sites⟩
    have htr := (Record.transferred_iff_notes rec).1 ((Record.transferred_iff rec).2 hrec.nonempty)
    obtain ⟨k, hk⟩ := htr
    rw [← Record.transferred_iff, Record.transferred_iff_notes]
    exact ⟨k, (Record.notes_merge hproper hrec.proper k none).2 (.inr hk)⟩
  have ht : (s.put r ((s.recordAt r).merge rec)).WellFormed P := by
    refine ⟨hs.partition, ?_⟩
    intro x rec' h
    rw [put, Table.get?_insert] at h
    split at h
    · rename_i hx
      obtain rfl := Option.some.inj h
      exact ⟨hx ▸ hr.self, hkept⟩
    · exact hs.records x rec' h
  refine ⟨ht, View.eq_of_iff (fun _ => Iff.rfl) ?_ ?_⟩
  · intro a b
    rw [view_linked ht]
    exact (view_linked hs a b).symm
  · intro a k o
    rw [view_noted ht]
    simp only [recordAt_put, View.annotate, View.Meets, Set.mem_singleton_iff, exists_eq_left,
      view_noted hs, view_linked hs]
    refine ⟨?_, ?_⟩
    · rintro ⟨x, hx, hn⟩
      split at hn
      · rename_i hrx
        subst hrx
        rcases (Record.notes_merge hproper hrec.proper k o).1 hn with hn | hn
        · exact .inl ⟨r, hx, hn⟩
        · exact .inr ⟨⟨r, hx, hr⟩, hn⟩
      · exact .inl ⟨x, hx, hn⟩
    · rintro (⟨x, hx, hn⟩ | ⟨⟨x, hx, hvx⟩, hn⟩)
      · refine ⟨x, hx, ?_⟩
        split
        · rename_i hrx
          subst hrx
          exact (Record.notes_merge hproper hrec.proper k o).2 (.inl hn)
        · exact hn
      · obtain rfl := hr.unique hvx
        refine ⟨r, hx, ?_⟩
        rw [if_pos rfl]
        exact (Record.notes_merge hproper hrec.proper k o).2 (.inr hn)

theorem mark_spec (hP : Site.Closed P) (hs : s.WellFormed P) (hv : v ∈ s.names) {site : Site}
    (hsite : P site) :
    ∃ t, s.mark v site = .ok t ∧ t.WellFormed P ∧ t.view = s.view.annotate {v} site.Notes := by
  obtain ⟨r, t, hf, hr, ht⟩ := find_spec hs hv
  have hkept : Record.Kept P ⟨[site]⟩ := by
    refine ⟨Record.proper_singleton site, by simp, ?_⟩
    intro x hx
    rw [List.mem_singleton.1 hx]
    exact hsite
  obtain ⟨hwf, hview⟩ :=
    put_merge_spec hP (ht.wellFormed hs) ((ht.partition.rep v r).2 hr) hkept
  refine ⟨_, ?_, hwf, ?_⟩
  · simp only [mark, hf, bind, Except.bind, pure, Except.pure, Record.withSite]
  · have hnotes : (⟨[site]⟩ : Record).Notes = site.Notes := by
      funext k o
      exact propext (Record.notes_singleton site k o)
    rw [hview, ht.view hs, hnotes]

end Regions
end Sendability
