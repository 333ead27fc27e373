/-
  Joining is the finest common coarsening.

  `View.coarsen` writes down the view of a join: names are linked by chains of
  links of either view, and what is noted about a name is noted somewhere along
  its chains. It is lawful and least, so it is the view of every join
  (`join_view`).

  Joining looks up the names of its operands, which shortens paths in them.
  `Regions.joinFrom` is the join that hands back the operands as it leaves them;
  no query can tell them from what they were (`Alike.indistinct`).
-/

import Sendability.Proofs.Exposure
import Sendability.Proofs.Refinement

namespace Sendability

-- ============================================================================
-- The view of a join
-- ============================================================================

namespace View

variable {A B : View}

/-- Names are linked as far as the links of two views connect them, and what is
    noted about one of them is noted about all. -/
def coarsen (A B : View) : View where
  tracked := (A.connect B).tracked
  linked := (A.connect B).linked
  noted v k o := ∃ w, (A.connect B).linked v w ∧ (A.noted w k o ∨ B.noted w k o)

theorem lawful_coarsen (hA : A.Lawful) (hB : B.Lawful) : (A.coarsen B).Lawful := by
  have h := lawful_connect hA hB
  exact
    { refl := h.refl
      tracked := h.tracked
      symm := h.symm
      trans := h.trans
      noted_tracked := fun ⟨_, hlinked, _⟩ => h.tracked hlinked
      noted_congr := fun hab ⟨w, hlinked, hw⟩ => ⟨w, h.trans (h.symm hab) hlinked, hw⟩ }

theorem isJoin_coarsen (hA : A.Lawful) (hB : B.Lawful) : IsJoin {A, B} (A.coarsen B) where
  upper := by
    have hself : ∀ {v}, A.tracked v ∨ B.tracked v → (A.connect B).linked v v :=
      (lawful_connect hA hB).refl
    rintro C (rfl | rfl)
    · exact ⟨fun _ => .inl, fun _ _ h => .single (.inl h),
        fun v k o h => ⟨v, hself (.inl (hA.noted_tracked h)), .inl h⟩⟩
    · exact ⟨fun _ => .inr, fun _ _ h => .single (.inr h),
        fun v k o h => ⟨v, hself (.inr (hB.noted_tracked h)), .inr h⟩⟩
  least := by
    intro U hU hle
    have hAU : A ≤ U := hle A (.inl rfl)
    have hBU : B ≤ U := hle B (.inr rfl)
    -- a chain of links stays inside a lawful view that has each of them
    have hlinked : ∀ a b, (A.coarsen B).linked a b → U.linked a b := by
      intro a b hab
      induction hab with
      | single h => exact h.elim (hAU.linked _ _) (hBU.linked _ _)
      | tail _ h ih => exact hU.trans ih (h.elim (hAU.linked _ _) (hBU.linked _ _))
    refine ⟨fun v h => h.elim (hAU.tracked v) (hBU.tracked v), hlinked, ?_⟩
    rintro v k o ⟨w, hvw, hw⟩
    exact hU.noted_congr (hU.symm (hlinked v w hvw))
      (hw.elim (hAU.noted w k o) (hBU.noted w k o))

end View

-- ============================================================================
-- Looking up names
-- ============================================================================

namespace Partition

variable {p q : Partition}

/-- Looking up a name gives one answer in partitions that differ in the lengths
    of paths only, and leaves them so. -/
theorem Alike.find_cases (h : Alike p q) (hp : p.WellFormed) (v : Name) :
    (∃ r p' q', p.find v = .ok (r, p') ∧ q.find v = .ok (r, q') ∧ p'.WellFormed ∧ Alike p' q') ∨
      p.find v = .error ⟨v⟩ ∧ q.find v = .error ⟨v⟩ := by
  by_cases hv : v ∈ p.names
  · have hv' : v ∈ q.names := h.names ▸ hv
    obtain ⟨r, p', hf, hr, hp'⟩ := find_spec hp hv
    obtain ⟨r', q', hf', hr', hq'⟩ := find_spec (h.wellFormed hp) hv'
    rw [← hr.unique ((h.rep v r').1 hr')] at hf'
    exact .inl ⟨r, p', q', hf, hf', hp'.wellFormed hp, hp'.symm.trans (h.trans hq')⟩
  · have hv' : v ∉ q.names := h.names ▸ hv
    exact .inr ⟨find_untracked hv, find_untracked hv'⟩

theorem Alike.sameRegion (h : Alike p q) (hp : p.WellFormed) (a b : Name) :
    (q.sameRegion a b).map Prod.fst = (p.sameRegion a b).map Prod.fst := by
  rcases h.find_cases hp a with ⟨ra, p', q', ha, ha', hp', hq'⟩ | ⟨ha, ha'⟩
  · rcases hq'.find_cases hp' b with ⟨rb, p'', q'', hb, hb', -⟩ | ⟨hb, hb'⟩
    · simp only [Partition.sameRegion, ha, ha', hb, hb', bind, Except.bind, pure, Except.pure,
        Except.map]
    · simp only [Partition.sameRegion, ha, ha', hb, hb', bind, Except.bind, Except.map]
  · simp only [Partition.sameRegion, ha, ha', bind, Except.bind, Except.map]

theorem Alike.classesOf (h : Alike p q) (hp : p.WellFormed) (groups : Table Name (List Name))
    (vs : List Name) :
    (q.classesOf groups vs).map Prod.fst = (p.classesOf groups vs).map Prod.fst := by
  induction vs generalizing p q groups with
  | nil => rfl
  | cons v vs ih =>
    rcases h.find_cases hp v with ⟨r, p', q', hv, hv', hp', hq'⟩ | ⟨hv, hv'⟩
    · simp only [Partition.classesOf, hv, hv']
      exact ih hq' hp' _
    · simp only [Partition.classesOf, hv, hv']

theorem Alike.classes (h : Alike p q) (hp : p.WellFormed) :
    (q.classes).map Prod.fst = (p.classes).map Prod.fst := by
  rw [Partition.classes, Partition.classes, h.names]
  exact h.classesOf hp _ _

/-- Imposes one partition on another, and hands back the one looked at. -/
def imposeFrom (p q : Partition) : List Name → Except Untracked (Partition × Partition)
  | [] => .ok (p, q)
  | v :: vs => do
    let (r, q) ← q.find v
    if r = v then p.imposeFrom q vs
    else
      let (_, p) ← p.union v [r]
      p.imposeFrom q vs

theorem map_fst_imposeFrom (p q : Partition) (vs : List Name) :
    (p.imposeFrom q vs).map Prod.fst = p.impose q vs := by
  induction vs generalizing p q with
  | nil => rfl
  | cons v vs ih =>
    simp only [imposeFrom, impose]
    cases q.find v with
    | error e => rfl
    | ok x =>
      obtain ⟨r, q'⟩ := x
      simp only [bind, Except.bind]
      split
      · exact ih p q'
      · cases p.union v [r] with
        | error e => rfl
        | ok y => exact ih y.2 q'

theorem imposeFrom_alike (hq : q.WellFormed) {vs : List Name} {p' q' : Partition}
    (h : p.imposeFrom q vs = .ok (p', q')) : Alike q q' := by
  induction vs generalizing p q with
  | nil =>
    cases h
    exact Alike.refl _
  | cons v vs ih =>
    obtain ⟨⟨r, q₁⟩, hf, h⟩ := ok_of_bind h
    have hq₁ := (find_ok hq hf).2
    simp only at h
    split at h
    · exact hq₁.trans (ih (hq₁.wellFormed hq) h)
    · obtain ⟨⟨top, p₁⟩, -, h⟩ := ok_of_bind h
      exact hq₁.trans (ih (hq₁.wellFormed hq) h)

end Partition

-- ============================================================================
-- Operands of a join
-- ============================================================================

namespace Regions

variable {P : Site → Prop} {s t u : Regions} {v : Name}

/-- Every query answers about `t` as about `s`. -/
structure Indistinct (s t : Regions) : Prop where
  names : t.names = s.names
  isTracked : ∀ v, t.isTracked v = s.isTracked v
  find : ∀ v, (t.find v).map Prod.fst = (s.find v).map Prod.fst
  sameRegion : ∀ a b, (t.sameRegion a b).map Prod.fst = (s.sameRegion a b).map Prod.fst
  recordFor : ∀ v, (t.recordFor v).map Prod.fst = (s.recordFor v).map Prod.fst
  isTransferred : ∀ v, (t.isTransferred v).map Prod.fst = (s.isTransferred v).map Prod.fst
  sitesFor : ∀ v, (t.sitesFor v).map Prod.fst = (s.sitesFor v).map Prod.fst
  classes : (t.classes).map Prod.fst = (s.classes).map Prod.fst
  canonical : (t.canonical).map Prod.fst = (s.canonical).map Prod.fst
  render : t.render = s.render

theorem Alike.recordFor (h : Alike s t) (hs : s.partition.WellFormed) (v : Name) :
    (t.recordFor v).map Prod.fst = (s.recordFor v).map Prod.fst := by
  rcases h.partition.find_cases hs v with ⟨r, p, q, hv, hv', -⟩ | ⟨hv, hv'⟩
  · simp only [Regions.recordFor, Regions.find, hv, hv', Regions.recordAt, h.records, Except.map]
  · simp only [Regions.recordFor, Regions.find, hv, hv', Except.map]

theorem Alike.isTracked (h : Alike s t) (v : Name) : t.isTracked v = s.isTracked v :=
  h.partition.contains v

/-- A query that reads the record of a tracked name answers alike. -/
theorem Alike.of_recordFor {α : Type} {Q : Regions → Except Untracked α} (h : Alike s t)
    (hs : s.partition.WellFormed) (v : Name) (g : Record → α) (other : α)
    (hQ : ∀ w : Regions, Q w =
      if w.isTracked v then ((w.recordFor v).map Prod.fst).map g else .ok other) :
    Q t = Q s := by
  rw [hQ, hQ, h.isTracked, h.recordFor hs]

/-- A query that sorts names into regions and reads the records answers alike. -/
theorem Alike.of_classes {α : Type} {Q : Regions → Except Untracked α} (h : Alike s t)
    (hs : s.partition.WellFormed) (g : Table Name (List Name) → Table Name Record → α)
    (hQ : ∀ w : Regions, Q w = ((w.partition.classes).map Prod.fst).map fun x => g x w.records) :
    Q t = Q s := by
  rw [hQ, hQ, h.partition.classes hs, h.records]

/-- States that differ in the lengths of paths only cannot be told apart. -/
theorem Alike.indistinct (h : Alike s t) (hs : s.partition.WellFormed) : Indistinct s t where
  names := h.partition.names
  isTracked := h.isTracked
  find := by
    intro v
    rcases h.partition.find_cases hs v with ⟨r, p, q, hv, hv', -⟩ | ⟨hv, hv'⟩
    · simp only [Regions.find, hv, hv', Except.map]
    · simp only [Regions.find, hv, hv', Except.map]
  sameRegion := by
    intro a b
    have hfst : ∀ w : Regions, (w.sameRegion a b).map Prod.fst =
        (w.partition.sameRegion a b).map Prod.fst := by
      intro w
      rw [Regions.sameRegion]
      cases w.partition.sameRegion a b <;> rfl
    rw [hfst, hfst, h.partition.sameRegion hs]
  recordFor := h.recordFor hs
  isTransferred := by
    intro v
    apply h.of_recordFor hs v Record.transferred false
    intro w
    rw [Regions.isTransferred]
    cases w.recordFor v <;> split <;> rfl
  sitesFor := by
    intro v
    apply h.of_recordFor hs v Record.sites []
    intro w
    rw [Regions.sitesFor]
    cases w.recordFor v <;> split <;> rfl
  classes := by
    apply h.of_classes hs fun groups _ => groups
    intro w
    rw [Regions.classes]
    cases w.partition.classes <;> rfl
  canonical := by
    apply h.of_classes hs fun groups records =>
      sortBy (fun a b => (List.compareLex Ord.compare a.members b.members).isLE)
        (groups.entries.map fun e => viewOf ⟨{}, records⟩ e.1 e.2)
    intro w
    rw [Regions.canonical, Regions.classes]
    cases w.partition.classes <;> rfl
  render := by
    apply h.of_classes hs fun groups records => "TransferState(" ++ Text.joined " "
      ((sortBy (fun a b => decide (a.1 ≤ b.1)) groups.entries).map fun e =>
        renderRegion e.2 (Regions.recordAt ⟨{}, records⟩ e.1)) ++ ")"
    intro w
    rw [Regions.render, Regions.classes]
    cases w.partition.classes <;> rfl

/-- Joins two states, and hands them back as they were left. -/
def joinFrom (s t : Regions) : Except Untracked (Regions × Regions × Regions) := do
  let p := (s.names ++ t.names).foldl Partition.add Partition.empty
  let (p, left) ← p.imposeFrom s.partition s.names
  let (p, right) ← p.imposeFrom t.partition t.names
  let u ← carryRecords ⟨p, {}⟩ (s.records.entries ++ t.records.entries)
  return (u, { s with partition := left }, { t with partition := right })

theorem map_fst_joinFrom (s t : Regions) : (s.joinFrom t).map Prod.fst = s.join t := by
  simp only [joinFrom, join, ← Partition.map_fst_imposeFrom]
  cases Partition.imposeFrom _ s.partition s.names with
  | error e => rfl
  | ok x =>
    simp only [bind, Except.bind, Except.map]
    cases Partition.imposeFrom x.1 t.partition t.names with
    | error e => rfl
    | ok y =>
      simp only
      cases carryRecords _ (s.records.entries ++ t.records.entries) <;> rfl

/-- A join succeeds with operands that cannot be told from what they were. -/
theorem joinFrom_of_join (hs : s.partition.WellFormed) (ht : t.partition.WellFormed)
    (h : s.join t = .ok u) :
    ∃ s' t', s.joinFrom t = .ok (u, s', t') ∧ Indistinct s s' ∧ Indistinct t t' := by
  rw [← map_fst_joinFrom] at h
  cases hfrom : s.joinFrom t with
  | error e =>
    rw [hfrom] at h
    cases h
  | ok x =>
    rw [hfrom] at h
    cases h
    obtain ⟨⟨p, left⟩, hleft, hfrom⟩ := ok_of_bind hfrom
    obtain ⟨⟨q, right⟩, hright, hfrom⟩ := ok_of_bind hfrom
    obtain ⟨w, -, hfrom⟩ := ok_of_bind hfrom
    cases hfrom
    have hs' : Alike s { s with partition := left } := ⟨Partition.imposeFrom_alike hs hleft, rfl⟩
    have ht' : Alike t { t with partition := right } := ⟨Partition.imposeFrom_alike ht hright, rfl⟩
    exact ⟨_, _, rfl, hs'.indistinct hs, ht'.indistinct ht⟩

-- ============================================================================
-- Joins
-- ============================================================================

theorem join_view (hP : Site.Closed P) (hs : s.WellFormed P) (ht : t.WellFormed P) :
    ∃ u, s.join t = .ok u ∧ u.WellFormed P ∧ u.view = s.view.coarsen t.view := by
  obtain ⟨u, hok, hu, hjoin⟩ := join_spec hP hs ht
  have hlaws := lawful_view hs
  have hlawt := lawful_view ht
  exact ⟨u, hok, hu, hjoin.unique (View.isJoin_coarsen hlaws hlawt) (lawful_view hu)
    (View.lawful_coarsen hlaws hlawt)⟩

/-- The sites of a region are in strict program order, and say what is noted. -/
theorem sitesFor_noted (hs : s.WellFormed P) (v : Name) :
    ∃ l w, s.sitesFor v = .ok (l, w) ∧ l.Pairwise (fun x y => x.point.Before y.point) ∧
      (∀ k, (∃ x ∈ l, x.point.key = k) ↔ s.view.noted v k none) ∧
      ∀ x ∈ l, ∀ n, n ∈ x.values ↔ s.view.noted v x.point.key (some n) := by
  by_cases hv : v ∈ s.names
  · obtain ⟨r, w, hok, hr, -⟩ := sitesFor_spec hs hv
    have hproper := proper_recordAt hs r
    have hnoted := noted_iff_of_rep hs hr
    refine ⟨_, w, hok, hproper.strict, ?_, ?_⟩
    · intro k
      rw [hnoted]
      exact ⟨fun ⟨x, hx, hk⟩ => ⟨x, hx, hk, by simp⟩, fun ⟨x, hx, hk, _⟩ => ⟨x, hx, hk⟩⟩
    · intro x hx n
      rw [hnoted]
      constructor
      · intro hn
        exact ⟨x, hx, rfl, by simpa using hn⟩
      · rintro ⟨y, hy, hkey, hn⟩
        rw [hproper.eq_of_key hx hy hkey.symm]
        exact hn n rfl
  · refine ⟨[], s, sitesFor_untracked hv, List.Pairwise.nil, ?_, by simp⟩
    intro k
    refine iff_of_false (by simp) fun h => hv ?_
    exact view_tracked.1 ((lawful_view hs).noted_tracked h)

/-- Joining two states gives their finest common coarsening. It tracks the names of
    both, and links names by chains of links of either; a region has a site at a
    point where one of its members has one in either state, with the values of all
    of those. Afterwards no query can tell the operands from what they were. -/
theorem join_coarsens (hs : s.Built fun _ => True) (ht : t.Built fun _ => True) :
    ∃ u s' t', s.join t = .ok u ∧ s.joinFrom t = .ok (u, s', t') ∧
      (∀ v, u.isTracked v = true ↔ s.isTracked v = true ∨ t.isTracked v = true) ∧
      (∀ a b, u.view.linked a b ↔
        Relation.TransGen (fun a b => s.view.linked a b ∨ t.view.linked a b) a b) ∧
      (∀ v, ∃ l w, u.sitesFor v = .ok (l, w) ∧
        l.Pairwise (fun x y => x.point.Before y.point) ∧
        (∀ k, (∃ x ∈ l, x.point.key = k) ↔
          ∃ a y, u.view.linked v a ∧ (s.Carries a y ∨ t.Carries a y) ∧ y.point.key = k) ∧
        ∀ x ∈ l, ∀ n, n ∈ x.values ↔
          ∃ a y, u.view.linked v a ∧ (s.Carries a y ∨ t.Carries a y) ∧
            y.point.key = x.point.key ∧ n ∈ y.values) ∧
      Indistinct s s' ∧ Indistinct t t' := by
  have hs := hs.wellFormed Site.closed_true
  have ht := ht.wellFormed Site.closed_true
  obtain ⟨u, hok, hu, hview⟩ := join_view Site.closed_true hs ht
  obtain ⟨s', t', hfrom, hleft, hright⟩ := joinFrom_of_join hs.partition ht.partition hok
  -- what is noted about a name is what sites of the operands note along its chains
  have hnoted : ∀ v k o, u.view.noted v k o ↔
      ∃ a y, u.view.linked v a ∧ (s.Carries a y ∨ t.Carries a y) ∧ y.Notes k o := by
    intro v k o
    rw [hview]
    simp only [View.coarsen, noted_iff_carries, or_and_right, exists_or, and_or_left,
      ← exists_and_left]
  refine ⟨u, s', t', hok, hfrom, fun v => ?_, fun a b => ?_, fun v => ?_, hleft, hright⟩
  · have htracked : u.view.tracked v ↔ s.view.tracked v ∨ t.view.tracked v := by
      rw [hview]
      rfl
    exact htracked
  · rw [hview]
    rfl
  · obtain ⟨l, w, hl, horder, hpoints, hvalues⟩ := sitesFor_noted hu v
    refine ⟨l, w, hl, horder, fun k => ?_, fun x hx n => ?_⟩
    · rw [hpoints, hnoted]
      simp [Site.Notes]
    · rw [hvalues x hx, hnoted]
      simp [Site.Notes]

/-- Two names in one region. -/
def paired : Except Untracked Regions := do
  let (_, s) ← ((empty.track "a").track "b").union "a" ["b"]
  return s

theorem built_paired (h : paired = .ok s) : s.Built fun _ => True := by
  obtain ⟨⟨top, w⟩, hunion, h⟩ := ok_of_bind h
  cases h
  exact ((Built.empty.track _).track _).union hunion

/-- The first name is linked to one that only the other state tracks, through the
    second, and with it to the call that handed that one over. -/
theorem renewed_join_paired : ∃ s t u, renewed = .ok s ∧ paired = .ok t ∧
    (s.Built fun _ => True) ∧ (t.Built fun _ => True) ∧ s.join t = .ok u ∧
    u.view.linked "a" "c" ∧
    ∃ l w, u.sitesFor "a" = .ok (l, w) ∧ ∃ x ∈ l, x.point.key = sending.point.key := by
  have hsome : renewed.toOption.isSome = true ∧ paired.toOption.isSome = true := by decide +kernel
  obtain ⟨s, hs⟩ := exists_ok_of_isSome hsome.1
  obtain ⟨t, ht⟩ := exists_ok_of_isSome hsome.2
  have hbc : (renewed.bind fun s => (s.sameRegion "b" "c").map Prod.fst) = .ok true := by
    decide +kernel
  have hab : (paired.bind fun s => (s.sameRegion "a" "b").map Prod.fst) = .ok true := by
    decide +kernel
  have hsites : (renewed.bind fun s => (s.sitesFor "c").map Prod.fst) = .ok [sending] := by
    decide +kernel
  rw [hs] at hbc hsites
  rw [ht] at hab
  obtain ⟨⟨_, w₁⟩, hbc, rfl⟩ := ok_of_map hbc
  obtain ⟨⟨_, w₂⟩, hab, rfl⟩ := ok_of_map hab
  obtain ⟨⟨_, w₃⟩, hsites, rfl⟩ := ok_of_map hsites
  obtain ⟨u, s', t', hok, -, -, hlinked, hall, -⟩ :=
    join_coarsens (built_renewed hs) (built_paired ht)
  have hac : u.view.linked "a" "c" := (hlinked "a" "c").2
    (.tail (.single (.inr ⟨w₂, hab⟩)) (.inl ⟨w₁, hbc⟩))
  obtain ⟨l, w, hl, -, hpoints, -⟩ := hall "a"
  have hcarries : s.Carries "c" sending := ⟨[sending], w₃, hsites, by simp⟩
  exact ⟨s, t, u, hs, ht, built_renewed hs, built_paired ht, hok, hac, l, w, hl,
    (hpoints sending.point.key).2 ⟨"c", sending, hac, .inl hcarries, rfl⟩⟩

end Regions

end Sendability
