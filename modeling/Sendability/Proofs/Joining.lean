/-
  What a join of regions is.

  Joining two states tracks their names, unites every name with its
  representative in either state, and merges the records. None of the steps
  is of interest by itself: `join_spec` says that the result is well formed and
  that its view is the least lawful one above both (`View.IsJoin`), and
  `joinAll_spec` says the same of a list.

  Each step is described by a pair of facts, what it adds and that it adds no
  more than a lawful view above must have.
-/

import Sendability.Region.Join
import Sendability.Proofs.StateChanges

namespace Sendability

-- ============================================================================
-- Imposing one partition on another
-- ============================================================================

namespace Partition

/-- The view of a partition without records. -/
def view (p : Partition) : View := Regions.view ⟨p, {}⟩

variable {p q : Partition} {vs : List Name}

theorem WellFormed.regions (hp : p.WellFormed) : Regions.WellFormed (fun _ => True) ⟨p, {}⟩ := by
  refine ⟨hp, ?_⟩
  intro r rec h
  cases h

theorem view_tracked (v : Name) : p.view.tracked v ↔ v ∈ p.names := Regions.view_tracked

theorem view_linked (hp : p.WellFormed) (a b : Name) :
    p.view.linked a b ↔ ∃ r, p.Rep a r ∧ p.Rep b r :=
  Regions.view_linked hp.regions a b

theorem not_view_noted (hp : p.WellFormed) (v : Name) (k : Int × Int) (o : Option Name) :
    ¬ p.view.noted v k o := by
  intro h
  obtain ⟨r, -, hn⟩ := (Regions.view_noted hp.regions v k o).1 h
  exact Record.not_notes_empty k o hn

theorem United.view (hp : p.WellFormed) (hq : q.WellFormed) {top : Name}
    (h : United p q vs top) : q.view = p.view.unite {v | v ∈ vs} := by
  refine View.eq_of_iff ?_ ?_ ?_
  · intro v
    rw [view_tracked, h.names]
    exact (view_tracked v).symm
  · intro a b
    have hmeets : ∀ x, p.view.Meets {v | v ∈ vs} x ↔ ∃ z, p.Rep x z ∧ ∃ v ∈ vs, p.Rep v z :=
      Regions.meets_iff hp.regions vs
    simp only [View.unite, view_linked hq, view_linked hp, hmeets]
    exact h.linked a b
  · intro v k o
    refine iff_of_false (not_view_noted hq v k o) ?_
    rintro (h | ⟨-, w, -, h⟩)
    · exact not_view_noted hp v k o h
    · exact not_view_noted hp w k o h

theorem linked_self (hp : p.WellFormed) {v : Name} (hv : v ∈ p.names) : p.view.linked v v := by
  obtain ⟨r, hr⟩ := hp.rep v hv
  exact (view_linked hp v v).2 ⟨r, hr, hr⟩

/-- Imposing one name unites it with its representative; where it is that itself
    there is nothing to do. -/
theorem impose_cons (hp : p.WellFormed) (hq : q.WellFormed) {v : Name} (hv : v ∈ q.names)
    (hsub : ∀ v ∈ q.names, v ∈ p.names) (vs : List Name) :
    ∃ (r : Name) (u q' : Partition), q.Rep v r ∧ Alike q q' ∧ u.WellFormed ∧ u.names = p.names ∧
      u.view = p.view.unite {w | w ∈ [v, r]} ∧ p.impose q (v :: vs) = u.impose q' vs := by
  obtain ⟨r, q', hf, hr, hq'⟩ := find_spec hq hv
  by_cases hrv : r = v
  · refine ⟨r, p, q', hr, hq', hp, rfl, ?_, ?_⟩
    · refine (View.unite_eq_self (Regions.lawful_view hp.regions) ?_).symm
      intro a ha b hb
      obtain rfl : a = v := by simpa [hrv] using ha
      obtain rfl : b = a := by simpa [hrv] using hb
      exact linked_self hp (hsub b hv)
    · simp only [impose, hf, bind, Except.bind, hrv, if_true]
  · have hboth : ∀ w ∈ [v, r], w ∈ p.names := by
      intro w hw
      rcases List.mem_cons.1 hw with rfl | hw
      · exact hsub w hv
      · rw [List.mem_singleton.1 hw]
        exact hsub r hr.self.mem_names
    obtain ⟨top, u, hu, hwf, hunited⟩ := union_spec hp hboth
    refine ⟨r, u, q', hr, hq', hwf, hunited.names, hunited.view hp hwf, ?_⟩
    simp only [impose, hf, bind, Except.bind, hrv, if_false, hu]

/-- Imposing `q` links every listed name to its representative in `q`, and links
    nothing that a lawful view with these links keeps apart. -/
theorem impose_spec (hp : p.WellFormed) (hq : q.WellFormed) (hvs : ∀ v ∈ vs, v ∈ q.names)
    (hsub : ∀ v ∈ q.names, v ∈ p.names) :
    ∃ p', p.impose q vs = .ok p' ∧ p'.WellFormed ∧ p'.names = p.names ∧ p.view ≤ p'.view ∧
      (∀ v ∈ vs, ∀ r, q.Rep v r → p'.view.linked v r) ∧
      ∀ U : View, U.Lawful → p.view ≤ U → (∀ v ∈ vs, ∀ r, q.Rep v r → U.linked v r) →
        p'.view ≤ U := by
  induction vs generalizing p q with
  | nil => exact ⟨p, rfl, hp, rfl, le_refl _, by simp, fun U _ h _ => h⟩
  | cons v vs ih =>
    have hv : v ∈ q.names := hvs v (by simp)
    obtain ⟨r, u, q', hr, hq', hu, hunames, hview, hstep⟩ := impose_cons hp hq hv hsub vs
    have hvs' : ∀ w ∈ vs, w ∈ q'.names := by
      intro w hw
      rw [hq'.names]
      exact hvs w (List.mem_cons_of_mem _ hw)
    have hsub' : ∀ w ∈ q'.names, w ∈ u.names := by
      rw [hq'.names, hunames]
      exact hsub
    obtain ⟨p', hok, hp', hnames, hle, hlink, hleast⟩ := ih hu (hq'.wellFormed hq) hvs' hsub'
    simp only [hq'.rep] at hlink hleast
    have hpu : p.view ≤ u.view := hview ▸ View.le_unite _ _
    refine ⟨p', hstep.trans hok, hp', hnames.trans hunames, hpu.trans hle, ?_, ?_⟩
    · intro w hw x hx
      rcases List.mem_cons.1 hw with rfl | hw
      · obtain rfl := hx.unique hr
        have hmeets : ∀ y ∈ [w, x], y ∈ p.names → p.view.Meets {z | z ∈ [w, x]} y :=
          fun y hy hyp => ⟨y, hy, linked_self hp hyp⟩
        apply hle.linked
        rw [hview]
        exact .inr ⟨hmeets w (by simp) (hsub w hv), hmeets x (by simp) (hsub x hr.self.mem_names)⟩
      · exact hlink w hw x hx
    · intro U hU hpU hUq
      have hvr : U.linked v r := hUq v (by simp) r hr
      have hends : ∀ x ∈ [v, r], U.linked v x := by
        intro x hx
        rcases List.mem_cons.1 hx with rfl | hx
        · exact hU.trans hvr (hU.symm hvr)
        · exact List.mem_singleton.1 hx ▸ hvr
      apply hleast U hU
      · rw [hview]
        apply View.unite_le hpU hU
        exact fun a ha b hb => hU.trans (hU.symm (hends a ha)) (hends b hb)
      · exact fun w hw => hUq w (List.mem_cons_of_mem _ hw)

theorem foldl_track_bare (p : Partition) (vs : List Name) :
    vs.foldl Regions.track ⟨p, {}⟩ = ⟨vs.foldl add p, {}⟩ := by
  induction vs generalizing p with
  | nil => rfl
  | cons v vs ih => exact ih (p.add v)

theorem foldl_add_spec (hp : p.WellFormed) (vs : List Name) :
    (vs.foldl add p).WellFormed ∧ (∀ v, v ∈ (vs.foldl add p).names ↔ v ∈ p.names ∨ v ∈ vs) ∧
      ∀ U : View, U.Lawful → p.view ≤ U → (∀ v ∈ vs, U.tracked v) →
        (vs.foldl add p).view ≤ U := by
  have h := Regions.foldl_track_spec hp.regions vs
  rw [foldl_track_bare] at h
  exact ⟨h.1.partition, h.2⟩

end Partition

-- ============================================================================
-- Joining
-- ============================================================================

namespace Regions

variable {P : Site → Prop} {s t : Regions}

/-- Carrying records over notes what they say, and no more. -/
theorem carryRecords_spec (hP : Site.Closed P) (hs : s.WellFormed P) {l : List (Name × Record)}
    (hl : ∀ e ∈ l, e.1 ∈ s.names ∧ e.2.Kept P) :
    ∃ t, s.carryRecords l = .ok t ∧ t.WellFormed P ∧ s.view ≤ t.view ∧
      (∀ e ∈ l, ∀ k o, e.2.Notes k o → t.view.noted e.1 k o) ∧
      ∀ U : View, U.Lawful → s.view ≤ U → (∀ e ∈ l, ∀ k o, e.2.Notes k o → U.noted e.1 k o) →
        t.view ≤ U := by
  induction l generalizing s with
  | nil => exact ⟨s, rfl, hs, le_refl _, by simp, fun U _ h _ => h⟩
  | cons e l ih =>
    obtain ⟨v, rec⟩ := e
    obtain ⟨hv, hrec⟩ := hl (v, rec) (by simp)
    obtain ⟨r, s', hf, hr, hs'⟩ := find_spec hs hv
    obtain ⟨hput, hview⟩ :=
      put_merge_spec hP (hs'.wellFormed hs) ((hs'.partition.rep v r).2 hr) hrec
    rw [hs'.view hs] at hview
    have hnames : (s'.put r ((s'.recordAt r).merge rec)).names = s.names := hs'.partition.names
    have hl' : ∀ e ∈ l, e.1 ∈ (s'.put r ((s'.recordAt r).merge rec)).names ∧ e.2.Kept P := by
      intro e he
      obtain ⟨h1, h2⟩ := hl e (List.mem_cons_of_mem _ he)
      exact ⟨hnames.symm ▸ h1, h2⟩
    obtain ⟨t, hok, ht, hle, hnoted, hleast⟩ := ih hput hl'
    rw [hview] at hle hleast
    refine ⟨t, ?_, ht, (View.le_annotate _ _ _).trans hle, ?_, ?_⟩
    · have htr : rec.transferred = true := (Record.transferred_iff rec).2 hrec.nonempty
      simp only [carryRecords, htr, if_true, hf, bind, Except.bind, hok]
    · intro e he k o hn
      rcases List.mem_cons.1 he with rfl | he
      · have hself : s.view.Meets {v} v := ⟨v, rfl, (lawful_view hs).refl (view_tracked.2 hv)⟩
        exact hle.noted v k o (.inr ⟨hself, hn⟩)
      · exact hnoted e he k o hn
    · intro U hU hsU hUl
      apply hleast U hU
      · apply View.annotate_le hsU hU
        intro w hw k o hn
        rw [Set.mem_singleton_iff.1 hw]
        exact hUl (v, rec) (by simp) k o hn
      · exact fun e he => hUl e (List.mem_cons_of_mem _ he)

/-- The join of two states has as its view the join of their views. -/
theorem join_spec (hP : Site.Closed P) (hs : s.WellFormed P) (ht : t.WellFormed P) :
    ∃ r, s.join t = .ok r ∧ r.WellFormed P ∧ View.IsJoin {s.view, t.view} r.view := by
  obtain ⟨hbase, hnames, hbaseLeast⟩ :=
    Partition.foldl_add_spec Partition.wellFormed_empty (s.names ++ t.names)
  obtain ⟨base, hbaseEq⟩ :
      ∃ base, base = (s.names ++ t.names).foldl Partition.add Partition.empty := ⟨_, rfl⟩
  rw [← hbaseEq] at hbase hnames hbaseLeast
  have hsBase : ∀ v ∈ s.names, v ∈ base.names := fun v hv => (hnames v).2 (.inr (by simp [hv]))
  have htBase : ∀ v ∈ t.names, v ∈ base.names := fun v hv => (hnames v).2 (.inr (by simp [hv]))
  have hsAll : ∀ v ∈ s.names, v ∈ s.partition.names := fun _ h => h
  have htAll : ∀ v ∈ t.names, v ∈ t.partition.names := fun _ h => h
  obtain ⟨p, hp, hpwf, hpnames, -, hplink, hpleast⟩ :=
    Partition.impose_spec hbase hs.partition hsAll hsBase
  have htp : ∀ v ∈ t.names, v ∈ p.names := fun v hv => hpnames ▸ htBase v hv
  obtain ⟨q, hq, hqwf, hqnames, hpq, hqlink, hqleast⟩ :=
    Partition.impose_spec hpwf ht.partition htAll htp
  have hnamesq : (⟨q, {}⟩ : Regions).names = base.names := hqnames.trans hpnames
  have hqP : WellFormed P ⟨q, {}⟩ := by
    refine ⟨hqwf, ?_⟩
    intro r rec h
    cases h
  -- the records of both states are kept under names of the result
  have hentries : ∀ e ∈ s.records.entries ++ t.records.entries,
      e.1 ∈ (⟨q, {}⟩ : Regions).names ∧ e.2.Kept P := by
    intro e he
    rcases List.mem_append.1 he with he | he
    · obtain ⟨h1, h2⟩ := hs.records e.1 e.2 ((Table.mem_entries_iff _ _ _).1 he)
      exact ⟨hnamesq.symm ▸ hsBase e.1 h1.mem_names, h2⟩
    · obtain ⟨h1, h2⟩ := ht.records e.1 e.2 ((Table.mem_entries_iff _ _ _).1 he)
      exact ⟨hnamesq.symm ▸ htBase e.1 h1.mem_names, h2⟩
  obtain ⟨r, hr, hrwf, hqr, hnoted, hleast⟩ := carryRecords_spec hP hqP hentries
  have hlaw := lawful_view hrwf
  have hok : s.join t = .ok r := by
    simp only [join, ← hbaseEq, hp, hq, hr, bind, Except.bind]
  have htrackedr : ∀ v ∈ base.names, r.view.tracked v :=
    fun v hv => hqr.tracked v (view_tracked.2 (hnamesq.symm ▸ hv))
  refine ⟨r, hok, hrwf, ?_, ?_⟩
  · rintro B (rfl | rfl)
    · refine (view_le_iff hs hlaw).2 ⟨fun v hv => htrackedr v (hsBase v hv), ?_, ?_⟩
      · exact fun v z hz => hqr.linked v z (hpq.linked v z (hplink v hz.mem_names z hz))
      · exact fun z rec h => hnoted (z, rec)
          (List.mem_append_left _ ((Table.mem_entries_iff _ _ _).2 h))
    · refine (view_le_iff ht hlaw).2 ⟨fun v hv => htrackedr v (htBase v hv), ?_, ?_⟩
      · exact fun v z hz => hqr.linked v z (hqlink v hz.mem_names z hz)
      · exact fun z rec h => hnoted (z, rec)
          (List.mem_append_right _ ((Table.mem_entries_iff _ _ _).2 h))
  · intro U hU hle
    obtain ⟨hsU, hsLinked, hsNoted⟩ := (view_le_iff hs hU).1 (hle _ (.inl rfl))
    obtain ⟨htU, htLinked, htNoted⟩ := (view_le_iff ht hU).1 (hle _ (.inr rfl))
    have hempty : Partition.empty.view ≤ U := by
      have hview : Partition.empty.view = View.empty := view_empty
      rw [hview]
      exact View.empty_le U
    have hbaseU : base.view ≤ U := by
      apply hbaseLeast U hU hempty
      intro v hv
      rcases List.mem_append.1 hv with hv | hv
      · exact hsU v hv
      · exact htU v hv
    have hpU : p.view ≤ U := hpleast U hU hbaseU fun v _ => hsLinked v
    have hqU : q.view ≤ U := hqleast U hU hpU fun v _ => htLinked v
    apply hleast U hU hqU
    intro e he
    rcases List.mem_append.1 he with he | he
    · exact hsNoted e.1 e.2 ((Table.mem_entries_iff _ _ _).1 he)
    · exact htNoted e.1 e.2 ((Table.mem_entries_iff _ _ _).1 he)

/-- The join of a list of states, whatever their order. -/
theorem joinAll_spec (hP : Site.Closed P) (hs : s.WellFormed P) {ts : List Regions}
    (hts : ∀ t ∈ ts, t.WellFormed P) :
    ∃ r, s.joinAll ts = .ok r ∧ r.WellFormed P ∧
      View.IsJoin {A | ∃ t ∈ s :: ts, t.view = A} r.view := by
  induction ts generalizing s with
  | nil =>
    refine ⟨s, rfl, hs, ?_⟩
    have hone : {A | ∃ t ∈ [s], t.view = A} = {s.view} := by
      ext A
      simp [eq_comm]
    rw [hone]
    exact View.isJoin_singleton s.view
  | cons t ts ih =>
    obtain ⟨u, hu, huwf, hjoin⟩ := join_spec hP hs (hts t (by simp))
    obtain ⟨r, hr, hrwf, hall⟩ := ih huwf fun x hx => hts x (List.mem_cons_of_mem _ hx)
    refine ⟨r, ?_, hrwf, ?_⟩
    · simp only [joinAll, hu, hr, bind, Except.bind]
    · have hcons : ∀ (x : Regions) (xs : List Regions),
          {A | ∃ y ∈ x :: xs, y.view = A} = insert x.view {A | ∃ y ∈ xs, y.view = A} := by
        intro x xs
        ext A
        simp [eq_comm]
      rw [hcons] at hall
      rw [hcons, hcons]
      exact hjoin.insert (lawful_view huwf) hall

end Regions

end Sendability
