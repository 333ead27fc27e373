/-
  Sameness is a congruence, and joining is a semilattice up to it.

  States that are the same differ in representatives, in the shape of their
  trees and in the order of their records. `Regions.Twin` says that none of this
  can be observed: such states answer every query alike. Every change leads from
  twins to twins, or fails for both at the same name (`Regions.Twins`), since what
  it does is a function of the view.

  Marking needs a word more. The new site may disagree with the sites that are
  there, and then its point does not determine the rest; but it either joins a
  site of its point, which keeps what tells it apart, or is new in both states
  (`mark_origin`).

  The laws of joins hold because a join is the least lawful view above both
  states, which is unique.
-/

import Sendability.Proofs.BuiltStates

namespace Sendability

-- ============================================================================
-- Sites that agree
-- ============================================================================

namespace Site

/-- The site is one of `S` but for what it hands over. -/
def Like (S : Site → Prop) (x : Site) : Prop := ∃ y, S y ∧ y.key = x.key

theorem like_closed (S : Site → Prop) : Closed (Like S) := by
  rintro a b ⟨y, hy, hkey⟩ - -
  exact ⟨y, hy, hkey.trans (key_merge a b).symm⟩

/-- Sites like coherent ones are coherent. -/
theorem like_coherent {S : Site → Prop} (hS : Coherent S) : Coherent (Like S) := by
  rintro a b ⟨y, hy, hya⟩ ⟨z, hz, hzb⟩ hab
  simp only [key, Prod.mk.injEq] at hya hzb
  obtain ⟨hpoint, hcallee, hkind, hsource⟩ := hya
  obtain ⟨hpoint', hcallee', hkind', hsource'⟩ := hzb
  have hyz := hS y z hy hz (hpoint.trans (hab.trans hpoint'.symm))
  rw [hcallee, hcallee', hkind, hkind', hsource, hsource'] at hyz
  exact hyz

end Site

namespace Regions

variable {P : Site → Prop} {s t u : Regions} {v : Name}

/-- The sites of some states that stand at one point agree on the callee, the
    kind and the source. -/
def Agreeing (states : List Regions) : Prop :=
  Site.Coherent fun x => ∃ s ∈ states, ∃ v, s.Carries v x

/-- Only the sites that a state carries matter for its being well formed. -/
theorem WellFormed.restrict {Q : Site → Prop} (hs : s.WellFormed P)
    (hQ : ∀ v x, s.Carries v x → Q x) : s.WellFormed Q := by
  refine ⟨hs.partition, ?_⟩
  intro r rec hrec
  obtain ⟨hr, hkept⟩ := hs.records r rec hrec
  refine ⟨hr, hkept.proper, hkept.nonempty, ?_⟩
  intro x hx
  have hat : s.recordAt r = rec := by
    rw [recordAt, hrec]
    rfl
  exact hQ r x ((carries_iff hs r x).2 ⟨r, hr, hat.symm ▸ hx⟩)

theorem WellFormed.plain (hs : s.WellFormed P) : s.WellFormed fun _ => True :=
  hs.restrict fun _ _ _ => trivial

/-- States whose sites agree are well formed for one property that lets points
    determine the rest of a site. -/
theorem Agreeing.exists_common {states : List Regions} (h : Agreeing states)
    (hbuilt : ∀ s ∈ states, s.Built fun _ => True) :
    ∃ P, Site.Closed P ∧ Site.Coherent P ∧ ∀ s ∈ states, s.WellFormed P := by
  refine ⟨Site.Like fun x => ∃ s ∈ states, ∃ v, s.Carries v x, Site.like_closed _,
    Site.like_coherent h, ?_⟩
  intro s hs
  have hwf : s.WellFormed fun _ => True := (hbuilt s hs).wellFormed fun _ _ _ _ _ => trivial
  exact hwf.restrict fun v x hx => ⟨x, ⟨s, hs, v, hx⟩, rfl⟩

-- ============================================================================
-- Twins
-- ============================================================================

/-- The states are the same, and every query answers alike: which names are
    tracked, which share a region, which are transferred, and at which points. -/
structure Twin (s t : Regions) : Prop where
  same : s.same t = .ok true
  tracked : ∀ v, s.isTracked v = t.isTracked v
  linked : ∀ a b, (s.sameRegion a b).map Prod.fst = (t.sameRegion a b).map Prod.fst
  transferred : ∀ v, (s.isTransferred v).map Prod.fst = (t.isTransferred v).map Prod.fst
  points : ∀ v, (s.sitesFor v).map (fun r => r.1.map fun x => x.point.key) =
    (t.sitesFor v).map (fun r => r.1.map fun x => x.point.key)

/-- Two attempts lead to twins, or fail at the same name. -/
def Twins : Except Untracked Regions → Except Untracked Regions → Prop
  | .ok s, .ok t => Twin s t
  | .error e, .error e' => e = e'
  | _, _ => False

theorem mem_names_iff (hview : s.view = t.view) (v : Name) : v ∈ s.names ↔ v ∈ t.names := by
  rw [← view_tracked, hview, view_tracked]

theorem isTracked_eq (hview : s.view = t.view) : s.isTracked = t.isTracked := by
  funext v
  rw [Bool.eq_iff_iff, isTracked_iff, isTracked_iff, mem_names_iff hview]

/-- States with one view have sites at the same points. -/
theorem notes_recordAt_iff (hs : s.WellFormed P) (ht : t.WellFormed P) (hview : s.view = t.view)
    {r r' : Name} (hr : s.partition.Rep v r) (hr' : t.partition.Rep v r') (k : Int × Int) :
    (s.recordAt r).Notes k none ↔ (t.recordAt r').Notes k none := by
  have hiff : s.view.noted v k none ↔ t.view.noted v k none := by rw [hview]
  rw [view_noted hs, view_noted ht] at hiff
  refine ⟨?_, ?_⟩
  · intro hn
    obtain ⟨z, hz, hn⟩ := hiff.1 ⟨r, hr, hn⟩
    exact hr'.unique hz ▸ hn
  · intro hn
    obtain ⟨z, hz, hn⟩ := hiff.2 ⟨r', hr', hn⟩
    exact hr.unique hz ▸ hn

/-- States with one view answer alike, and fail alike. -/
theorem sameRegion_answer (hs : s.WellFormed P) (ht : t.WellFormed P) (hview : s.view = t.view)
    (a b : Name) : (s.sameRegion a b).map Prod.fst = (t.sameRegion a b).map Prod.fst := by
  have hnames := mem_names_iff hview
  by_cases ha : a ∈ s.names
  · by_cases hb : b ∈ s.names
    · obtain ⟨x, u, hx, hxiff⟩ := sameRegion_spec hs ha hb
      obtain ⟨y, w, hy, hyiff⟩ := sameRegion_spec ht ((hnames a).1 ha) ((hnames b).1 hb)
      have hxy : x = y := by
        rw [Bool.eq_iff_iff, hxiff, hyiff, hview]
      rw [hx, hy, hxy]
      rfl
    · rw [sameRegion_untracked_right hs ha hb,
        sameRegion_untracked_right ht ((hnames a).1 ha) (fun h => hb ((hnames b).2 h))]
  · rw [sameRegion_untracked_left ha, sameRegion_untracked_left fun h => ha ((hnames a).2 h)]

theorem isTransferred_answer (hs : s.WellFormed P) (ht : t.WellFormed P) (hview : s.view = t.view)
    (v : Name) : (s.isTransferred v).map Prod.fst = (t.isTransferred v).map Prod.fst := by
  have hnames := mem_names_iff hview
  by_cases hv : v ∈ s.names
  · obtain ⟨r, u, hu, hr, -⟩ := isTransferred_spec hs hv
    obtain ⟨r', w, hw, hr', -⟩ := isTransferred_spec ht ((hnames v).1 hv)
    have heq : (s.recordAt r).transferred = (t.recordAt r').transferred := by
      rw [Bool.eq_iff_iff, Record.transferred_iff_notes, Record.transferred_iff_notes]
      exact exists_congr (notes_recordAt_iff hs ht hview hr hr')
    rw [hu, hw, heq]
    rfl
  · rw [isTransferred_untracked hv, isTransferred_untracked fun h => hv ((hnames v).2 h)]
    rfl

/-- States with one view have sites at the same points. -/
theorem sitesFor_points (hs : s.WellFormed P) (ht : t.WellFormed P) (hview : s.view = t.view)
    (v : Name) : (s.sitesFor v).map (fun r => r.1.map fun x => x.point.key) =
      (t.sitesFor v).map (fun r => r.1.map fun x => x.point.key) := by
  have hnames := mem_names_iff hview
  by_cases hv : v ∈ s.names
  · obtain ⟨r, u, hu, hr, -⟩ := sitesFor_spec hs hv
    obtain ⟨r', w, hw, hr', -⟩ := sitesFor_spec ht ((hnames v).1 hv)
    have heq := Record.points_eq (proper_recordAt hs r) (proper_recordAt ht r')
      (notes_recordAt_iff hs ht hview hr hr')
    rw [hu, hw]
    exact congrArg Except.ok heq
  · rw [sitesFor_untracked hv, sitesFor_untracked fun h => hv ((hnames v).2 h)]
    rfl

/-- States with one view and matching sites are twins. -/
theorem twin_of_view (hs : s.WellFormed P) (ht : t.WellFormed P) (hview : s.view = t.view)
    (hmatch : Matching s t) : Twin s t where
  same := by
    obtain ⟨b, hb, hiff⟩ := same_iff hs ht
    rw [hb, hiff.2 ⟨hview, hmatch⟩]
  tracked := congrFun (isTracked_eq hview)
  linked := sameRegion_answer hs ht hview
  transferred := isTransferred_answer hs ht hview
  points := sitesFor_points hs ht hview

/-- Where points determine the rest of a site, changes that lead to one view lead
    to twins. -/
theorem twins_of_view (hP : Site.Coherent P) {x y : Except Untracked Regions} {A : View}
    (hx : ∃ s, x = .ok s ∧ s.WellFormed P ∧ s.view = A)
    (hy : ∃ t, y = .ok t ∧ t.WellFormed P ∧ t.view = A) : Twins x y := by
  obtain ⟨s, rfl, hs, rfl⟩ := hx
  obtain ⟨t, rfl, ht, hview⟩ := hy
  exact twin_of_view hs ht hview.symm (matching_of_coherent hP hs ht)

-- ============================================================================
-- Laws of joins
-- ============================================================================

theorem join_self_same (hP : Site.Closed P) (hcoh : Site.Coherent P) (hs : s.WellFormed P) :
    ∃ u, s.join s = .ok u ∧ u.same s = .ok true := by
  obtain ⟨u, hu, huwf, hjoin⟩ := join_spec hP hs hs
  rw [Set.pair_eq_singleton] at hjoin
  have hview : u.view = s.view :=
    hjoin.unique (View.isJoin_singleton s.view) (lawful_view huwf) (lawful_view hs)
  exact ⟨u, hu, same_of_view hcoh huwf hs hview⟩

/-- The order of a join cannot be observed. -/
theorem join_comm_same (hP : Site.Closed P) (hcoh : Site.Coherent P) (hs : s.WellFormed P)
    (ht : t.WellFormed P) :
    ∃ u w, s.join t = .ok u ∧ t.join s = .ok w ∧ u.same w = .ok true := by
  obtain ⟨u, hu, huwf, hjoin⟩ := join_spec hP hs ht
  obtain ⟨w, hw, hwwf, hjoin'⟩ := join_spec hP ht hs
  rw [Set.pair_comm] at hjoin'
  have hview : u.view = w.view := hjoin.unique hjoin' (lawful_view huwf) (lawful_view hwwf)
  exact ⟨u, w, hu, hw, same_of_view hcoh huwf hwwf hview⟩

/-- Nor can the way joins are nested. -/
theorem join_assoc_same (hP : Site.Closed P) (hcoh : Site.Coherent P) (hs : s.WellFormed P)
    (ht : t.WellFormed P) (hu : u.WellFormed P) :
    ∃ st l tu r, s.join t = .ok st ∧ st.join u = .ok l ∧ t.join u = .ok tu ∧ s.join tu = .ok r ∧
      l.same r = .ok true := by
  obtain ⟨st, hst, hstwf, hjst⟩ := join_spec hP hs ht
  obtain ⟨l, hl, hlwf, hjl⟩ := join_spec hP hstwf hu
  obtain ⟨tu, htu, htuwf, hjtu⟩ := join_spec hP ht hu
  obtain ⟨r, hr, hrwf, hjr⟩ := join_spec hP hs htuwf
  -- either way it is the join of the three views
  have hleft : View.IsJoin {s.view, t.view, u.view} l.view := hjst.insert (lawful_view hstwf) hjl
  have hright : View.IsJoin {s.view, t.view, u.view} r.view := by
    rw [Set.pair_comm] at hjr
    have h := hjtu.insert (lawful_view htuwf) hjr
    have hset : ({t.view, u.view, s.view} : Set View) = {s.view, t.view, u.view} := by
      rw [Set.pair_comm u.view s.view, Set.insert_comm]
    exact hset ▸ h
  have hview : l.view = r.view := hleft.unique hright (lawful_view hlwf) (lawful_view hrwf)
  exact ⟨st, l, tu, r, hst, hl, htu, hr, same_of_view hcoh hlwf hrwf hview⟩

-- ============================================================================
-- Changes lead from twins to twins
-- ============================================================================

section Changes

theorem track_twin (hP : Site.Coherent P) (hs : s.WellFormed P) (ht : t.WellFormed P)
    (hview : s.view = t.view) (v : Name) : Twin (s.track v) (t.track v) := by
  have hs' := wellFormed_track hs v
  have ht' := wellFormed_track ht v
  refine twin_of_view hs' ht' ?_ (matching_of_coherent hP hs' ht')
  rw [view_track hs, view_track ht, hview]

/-- Defining a name anew does not tell states with one view apart. -/
theorem redefine_twins (hP : Site.Coherent P) (hs : s.WellFormed P) (ht : t.WellFormed P)
    (hview : s.view = t.view) (v : Name) : Twins (s.redefine v) (t.redefine v) := by
  have hr := redefine_spec hs v
  rw [hview] at hr
  exact twins_of_view hP hr (redefine_spec ht v)

theorem union_untracked (hs : s.partition.WellFormed) {first w : Name} {others : List Name}
    (hw : (first :: others).find? (fun v => !s.isTracked v) = some w) :
    s.union first others = .error ⟨w⟩ := by
  have hfail : s.partition.findAll (first :: others) = .error ⟨w⟩ :=
    Partition.findAll_untracked hs hw
  simp only [union, hfail, bind, Except.bind]

/-- Nor does a union, although it may choose another representative. -/
theorem union_twins (hclosed : Site.Closed P) (hP : Site.Coherent P) (hs : s.WellFormed P)
    (ht : t.WellFormed P) (hview : s.view = t.view) (first : Name) (others : List Name) :
    Twins ((s.union first others).map Prod.snd) ((t.union first others).map Prod.snd) := by
  have htracked := isTracked_eq hview
  rcases Partition.tracked_or_untracked s.partition (first :: others) with hall | ⟨w, hw⟩
  · have hall' : ∀ v ∈ first :: others, v ∈ t.names := by
      intro v hv
      rw [← isTracked_iff, ← htracked, isTracked_iff]
      exact hall v hv
    obtain ⟨top, s', hok, hwf, hview'⟩ := union_spec hclosed hs hall
    obtain ⟨top', t', hok', hwf', hview''⟩ := union_spec hclosed ht hall'
    rw [hok, hok']
    refine twins_of_view hP ⟨s', rfl, hwf, rfl⟩ ⟨t', rfl, hwf', ?_⟩
    rw [hview', hview'', hview]
  · have hw : (first :: others).find? (fun v => !s.isTracked v) = some w := hw
    rw [union_untracked hs.partition hw]
    rw [htracked] at hw
    rw [union_untracked ht.partition hw]
    exact rfl

/-- Nor does a join, on either side. -/
theorem join_twins (hclosed : Site.Closed P) (hP : Site.Coherent P) (hs : s.WellFormed P)
    (ht : t.WellFormed P) (hu : u.WellFormed P) (hview : s.view = t.view) :
    Twins (s.join u) (t.join u) ∧ Twins (u.join s) (u.join t) := by
  obtain ⟨a, ha, hawf, hja⟩ := join_spec hclosed hs hu
  obtain ⟨b, hb, hbwf, hjb⟩ := join_spec hclosed ht hu
  obtain ⟨a', ha', hawf', hja'⟩ := join_spec hclosed hu hs
  obtain ⟨b', hb', hbwf', hjb'⟩ := join_spec hclosed hu ht
  rw [hview] at hja hja'
  refine ⟨twins_of_view hP ⟨a, ha, hawf, rfl⟩ ⟨b, hb, hbwf, ?_⟩,
    twins_of_view hP ⟨a', ha', hawf', rfl⟩ ⟨b', hb', hbwf', ?_⟩⟩
  · exact hjb.unique hja (lawful_view hbwf) (lawful_view hawf)
  · exact hjb'.unique hja' (lawful_view hbwf') (lawful_view hawf')

/-- After a region was marked, each of its sites is told apart as one that was
    there, or is the new one at a point that had none. -/
theorem mark_origin (hs : s.WellFormed P) {site : Site} (hok : s.mark v site = .ok t)
    (ht : t.WellFormed fun _ => True) {w : Name} {x : Site} (hx : t.Carries w x) :
    (∃ a, s.Carries w a ∧ a.key = x.key) ∨ (x = site ∧ ¬ s.view.noted w site.point.key none) := by
  obtain ⟨⟨r, q⟩, hfind, hput⟩ := ok_of_bind hok
  obtain ⟨r', q', hf, hr, halike⟩ := find_spec hs (mem_names_of_find hs hfind)
  obtain ⟨rfl, rfl⟩ := Prod.mk.inj (Except.ok.inj (hfind.symm.trans hf))
  obtain rfl := Except.ok.inj hput
  obtain ⟨z, hz, hx⟩ := (carries_iff ht w x).1 hx
  have hzs : s.partition.Rep w z := (halike.partition.rep w z).1 hz
  have hold : ∀ a ∈ (s.recordAt z).sites, s.Carries w a :=
    fun a ha => (carries_iff hs w a).2 ⟨z, hzs, ha⟩
  rw [recordAt_put, halike.recordAt] at hx
  split at hx
  · rename_i hrz
    subst hrz
    rcases (Record.mem_sites_merge (proper_recordAt hs r) (Record.proper_singleton site) x).1 hx
      with ⟨hx, -⟩ | ⟨hx, hnew⟩ | ⟨a, ha, b, -, -, rfl⟩
    · exact .inl ⟨x, hold x hx, rfl⟩
    · obtain rfl := List.mem_singleton.1 hx
      refine .inr ⟨rfl, ?_⟩
      intro hn
      obtain ⟨z', hz', a, ha, hkey, -⟩ := (view_noted hs _ _ _).1 hn
      rw [← hzs.unique hz'] at ha
      exact hnew a ha hkey
    · exact .inl ⟨a, hold a ha, (Site.key_merge a b).symm⟩
  · rw [halike.recordAt] at hx
    exact .inl ⟨x, hold x hx, rfl⟩

theorem mark_untracked (hv : v ∉ s.names) (site : Site) : s.mark v site = .error ⟨v⟩ := by
  have hfail : s.partition.find v = .error ⟨v⟩ := Partition.find_untracked hv
  simp only [mark, find, hfail, bind, Except.bind]

theorem mark_twins (hs : s.WellFormed P) (ht : t.WellFormed P) (hview : s.view = t.view)
    (hmatch : Matching s t) (v : Name) (site : Site) : Twins (s.mark v site) (t.mark v site) := by
  have hnames := mem_names_iff hview v
  have hmarked : ∀ z : Regions, z.WellFormed P → v ∈ z.names → ∃ z', z.mark v site = .ok z' ∧
      z'.WellFormed (fun _ => True) ∧ z'.view = z.view.annotate {v} site.Notes :=
    fun z hz hv => mark_spec (fun _ _ _ _ _ => trivial) hz.plain hv trivial
  by_cases hv : v ∈ s.names
  · obtain ⟨s', hok, hwf, hview'⟩ := hmarked s hs hv
    obtain ⟨t', hok', hwf', hview''⟩ := hmarked t ht (hnames.1 hv)
    rw [hok, hok']
    refine twin_of_view hwf hwf' (by rw [hview', hview'', hview]) ?_
    intro w x y hx hy hkey
    -- a site that is new in one state is at a point without a site in the other
    have hold : ∀ {z : Regions} {a : Site}, z.Carries w a →
        z.view.noted w a.point.key none := by
      intro z a ha
      exact (noted_iff_carries z w _ none).2 ⟨a, ha, rfl, by simp⟩
    rcases mark_origin hs hok hwf hx with ⟨a, ha, hax⟩ | ⟨rfl, hnew⟩
    · have hpa : a.point.key = x.point.key := (Prod.mk.inj hax).1
      rcases mark_origin ht hok' hwf' hy with ⟨b, hb, hby⟩ | ⟨rfl, hnew'⟩
      · have hpb : b.point.key = y.point.key := (Prod.mk.inj hby).1
        rw [← hax, ← hby]
        exact hmatch w a b ha hb (hpa.trans (hkey.trans hpb.symm))
      · have hn := hold ha
        rw [hpa, hkey, hview] at hn
        exact absurd hn hnew'
    · rcases mark_origin ht hok' hwf' hy with ⟨b, hb, hby⟩ | ⟨rfl, -⟩
      · have hpb : b.point.key = y.point.key := (Prod.mk.inj hby).1
        have hn := hold hb
        rw [hpb, ← hkey, ← hview] at hn
        exact absurd hn hnew
      · rfl
  · rw [mark_untracked hv, mark_untracked fun h => hv (hnames.2 h)]
    exact rfl

theorem transfer_twins (hs : s.WellFormed P) (ht : t.WellFormed P) (hview : s.view = t.view)
    (hmatch : Matching s t) (f : Func) (c : Call) (kind : Crossing) (point : Point)
    (source : List Name) :
    Twins (s.transfer f c kind point source) (t.transfer f c kind point source) := by
  cases source with
  | nil => exact twin_of_view hs ht hview hmatch
  | cons v vs =>
    rw [transfer, transfer]
    split
    · cases typesAmong c.operands (v :: vs) with
      | error e => exact rfl
      | ok types => exact mark_twins hs ht hview hmatch v _
    · exact twin_of_view hs ht hview hmatch

/-- No operation tells states with one view apart. -/
theorem apply_twins (hclosed : Site.Closed P) (hP : Site.Coherent P) (hs : s.WellFormed P)
    (ht : t.WellFormed P) (hview : s.view = t.view) (f : Func) (kind : Crossing) (point : Point)
    (op : Op) : Twins (s.apply f kind point op) (t.apply f kind point op) := by
  have hbuild : ∀ dest parts, Twins (s.build dest parts) (t.build dest parts) := by
    intro dest parts
    have hb := build_spec hclosed hs dest parts
    rw [hview] at hb
    exact twins_of_view hP hb (build_spec hclosed ht dest parts)
  cases op with
  | init dest args loc => exact hbuild (some dest) args
  | load dest base field loc => exact hbuild (some dest) [base]
  | copy dest src loc => exact hbuild (some dest) [src]
  | store base field value loc => exact hbuild none [base, value]
  | closure dest captures loc => exact hbuild (some dest) captures
  | use value kind loc => exact twin_of_view hs ht hview (matching_of_coherent hP hs ht)
  | call c =>
    obtain ⟨s', hok, hwf, hview'⟩ := build_spec hclosed hs c.dest c.operands
    obtain ⟨t', hok', hwf', hview''⟩ := build_spec hclosed ht c.dest c.operands
    have hsource : t.tracked c.operands = s.tracked c.operands := by
      simp only [tracked, isTracked_eq hview]
    simp only [apply, hok, hok', hsource, bind, Except.bind]
    exact transfer_twins hwf hwf' (by rw [hview', hview'', hview])
      (matching_of_coherent hP hwf hwf') f c kind point _

/-- Running over an operation looks for accesses, which shortens paths only, and
    then applies it. -/
theorem passOp_regions {σ : Type} (hs : s.WellFormed P) (f : Func) (c : Classifier σ) (watch : Bool)
    (memory : σ) (point : Point) (op : Op) :
    ∃ s', Alike s s' ∧ (f.passOp c watch memory s point op).map Passage.regions =
      s'.apply f (c.crossing memory f op).1 point op := by
  obtain ⟨l, s', hl, halike, -⟩ := watchedAccesses_spec hs watch point op.loc op.operands
  refine ⟨s', halike, ?_⟩
  simp only [Func.passOp, hl, bind, Except.bind]
  cases s'.apply f (c.crossing memory f op).1 point op with
  | error e => rfl
  | ok r => rfl

theorem passOp_twins {σ : Type} (hclosed : Site.Closed P) (hP : Site.Coherent P)
    (hs : s.WellFormed P) (ht : t.WellFormed P) (hview : s.view = t.view) (f : Func)
    (c : Classifier σ) (watch : Bool) (memory : σ) (point : Point) (op : Op) :
    Twins ((f.passOp c watch memory s point op).map Passage.regions)
      ((f.passOp c watch memory t point op).map Passage.regions) := by
  obtain ⟨s', halike, hok⟩ := passOp_regions hs f c watch memory point op
  obtain ⟨t', halike', hok'⟩ := passOp_regions ht f c watch memory point op
  rw [hok, hok']
  refine apply_twins hclosed hP (halike.wellFormed hs) (halike'.wellFormed ht) ?_ f _ point op
  rw [halike.view hs, halike'.view ht, hview]

end Changes

-- ============================================================================
-- The laws for built states
-- ============================================================================

/-- On states that changes lead to and whose sites agree, joining is idempotent,
    commutative and associative up to sameness. From states that are the same,
    every change, every join with a third state and every operation lead to
    twins, or fail at the same name. -/
theorem join_laws_and_congruence :
    (∀ s : Regions, s.Built (fun _ => True) → Agreeing [s] →
      ∃ u, s.join s = .ok u ∧ u.same s = .ok true) ∧
    (∀ s t : Regions, s.Built (fun _ => True) → t.Built (fun _ => True) → Agreeing [s, t] →
      ∃ u w, s.join t = .ok u ∧ t.join s = .ok w ∧ u.same w = .ok true) ∧
    (∀ s t u : Regions, s.Built (fun _ => True) → t.Built (fun _ => True) →
      u.Built (fun _ => True) → Agreeing [s, t, u] →
      ∃ st l tu r, s.join t = .ok st ∧ st.join u = .ok l ∧ t.join u = .ok tu ∧
        s.join tu = .ok r ∧ l.same r = .ok true) ∧
    ∀ s t : Regions, s.Built (fun _ => True) → t.Built (fun _ => True) → Agreeing [s, t] →
      s.same t = .ok true →
      (∀ v, Twin (s.track v) (t.track v)) ∧
      (∀ first others,
        Twins ((s.union first others).map Prod.snd) ((t.union first others).map Prod.snd)) ∧
      (∀ v, Twins (s.redefine v) (t.redefine v)) ∧
      (∀ v site, Twins (s.mark v site) (t.mark v site)) ∧
      (∀ u : Regions, u.Built (fun _ => True) → Agreeing [s, t, u] →
        Twins (s.join u) (t.join u) ∧ Twins (u.join s) (u.join t)) ∧
      ∀ {σ : Type} (f : Func) (c : Classifier σ) watch memory point op,
        Twins ((f.passOp c watch memory s point op).map Passage.regions)
          ((f.passOp c watch memory t point op).map Passage.regions) := by
  refine ⟨?_, ?_, ?_, ?_⟩
  · intro s hs hagree
    obtain ⟨P, hclosed, hP, hwf⟩ := hagree.exists_common (by simpa using hs)
    exact join_self_same hclosed hP (hwf s (by simp))
  · intro s t hs ht hagree
    obtain ⟨P, hclosed, hP, hwf⟩ := hagree.exists_common (by simpa using ⟨hs, ht⟩)
    exact join_comm_same hclosed hP (hwf s (by simp)) (hwf t (by simp))
  · intro s t u hs ht hu hagree
    obtain ⟨P, hclosed, hP, hwf⟩ := hagree.exists_common (by simpa using ⟨hs, ht, hu⟩)
    exact join_assoc_same hclosed hP (hwf s (by simp)) (hwf t (by simp)) (hwf u (by simp))
  · intro s t hs ht hagree hsame
    obtain ⟨P, hclosed, hP, hwf⟩ := hagree.exists_common (by simpa using ⟨hs, ht⟩)
    have hswf := hwf s (by simp)
    have htwf := hwf t (by simp)
    have hview := view_of_same hP hswf htwf hsame
    refine ⟨track_twin hP hswf htwf hview, union_twins hclosed hP hswf htwf hview,
      redefine_twins hP hswf htwf hview,
      mark_twins hswf htwf hview (matching_of_coherent hP hswf htwf), ?_, ?_⟩
    · intro u hu hagree'
      obtain ⟨Q, hclosed', hQ, hwf'⟩ := hagree'.exists_common (by simpa using ⟨hs, ht, hu⟩)
      exact join_twins hclosed' hQ (hwf' s (by simp)) (hwf' t (by simp)) (hwf' u (by simp)) hview
    · intro σ
      exact passOp_twins hclosed hP hswf htwf hview

/-- A call that sends `a`. -/
def sending : Site :=
  { point := ⟨0, 0, "entry"⟩, callee := "send", kind := .entering, values := ["a"]
    types := ["Box"], source := "main" }

/-- Three names that are united in two steps and then sent. The order of the steps
    decides which name represents them. -/
def gathered (a b c d : Name) : Except Untracked Regions := do
  let (_, s) ← (((empty.track "a").track "b").track "c").union a [b]
  let (_, s) ← s.union c [d]
  s.mark "a" sending

theorem built_gathered {a b c d : Name} (h : gathered a b c d = .ok s) :
    s.Built (· = sending) := by
  obtain ⟨⟨r, s₁⟩, h₁, h⟩ := ok_of_bind h
  obtain ⟨⟨r', s₂⟩, h₂, h⟩ := ok_of_bind h
  exact ((((Built.empty.track _).track _).track _).union h₁ |>.union h₂).mark rfl h

/-- The two states differ, but not in what can be observed. -/
theorem gathered_twins : ∃ s t, gathered "b" "c" "a" "b" = .ok s ∧
    gathered "a" "b" "c" "a" = .ok t ∧ s ≠ t ∧ s.same t = .ok true ∧ Agreeing [s, t] ∧
    (∀ v, Twins (s.redefine v) (t.redefine v)) ∧
    (∃ u w, s.join t = .ok u ∧ t.join s = .ok w ∧ u.same w = .ok true) := by
  obtain ⟨s, hs⟩ := exists_ok_of_isSome (x := gathered "b" "c" "a" "b") (by decide +kernel)
  obtain ⟨t, ht⟩ := exists_ok_of_isSome (x := gathered "a" "b" "c" "a") (by decide +kernel)
  have hdiffer : gathered "b" "c" "a" "b" ≠ gathered "a" "b" "c" "a" := by decide +kernel
  have hsame : (do (← gathered "b" "c" "a" "b").same (← gathered "a" "b" "c" "a")) = .ok true := by
    decide +kernel
  rw [hs, ht] at hdiffer hsame
  have hbuilt := built_gathered hs
  have hbuilt' := built_gathered ht
  -- merging the site with itself changes nothing
  have hclosed : Site.Closed (· = sending) := by
    rintro a b rfl rfl -
    decide +kernel
  have hagree : Agreeing [s, t] := by
    have hone : ∀ x, (∃ z ∈ [s, t], ∃ v, z.Carries v x) → x = sending := by
      rintro x ⟨z, hz, v, hx⟩
      have hz' : z.Built (· = sending) := by
        rcases List.mem_cons.1 hz with rfl | hz
        · exact hbuilt
        · exact List.mem_singleton.1 hz ▸ hbuilt'
      exact carries_property (hz'.wellFormed hclosed) hx
    intro x y hx hy _
    rw [hone x hx, hone y hy]
    exact ⟨rfl, rfl, rfl⟩
  have hplain := hbuilt.mono (Q := fun _ => True) fun _ _ => trivial
  have hplain' := hbuilt'.mono (Q := fun _ => True) fun _ _ => trivial
  obtain ⟨-, hcomm, -, hcong⟩ := join_laws_and_congruence
  exact ⟨s, t, hs, ht, fun h => hdiffer (congrArg Except.ok h), hsame, hagree,
    (hcong s t hplain hplain' hagree hsame).2.2.1, hcomm s t hplain hplain' hagree⟩

end Regions

end Sendability
