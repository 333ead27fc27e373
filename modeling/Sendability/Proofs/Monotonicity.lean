/-
  Transfer functions are monotone.

  States are ordered by their joins: one is below another when joining it in
  changes nothing. Where the point of a site determines the rest of it, this is
  the order of views (`le_iff_view_le`), in which the changes of an operation are
  monotone. So are the accesses that are met: what a smaller state exposes, a
  larger one exposes with no fewer transfers (`exposures_mono`).

  That points determine sites is a matter of where calls stand. A `layout` tells
  the call at every point, and `Site.Fits` says that a site has the callee, the
  kind and the source of the call at its point.
-/

import Sendability.Proofs.Congruence
import Sendability.Proofs.Exposure

namespace Sendability

-- ============================================================================
-- More is exposed
-- ============================================================================

/-- The same use of the same value, after no fewer transfers of no fewer values. -/
structure Access.Summary.Within (x y : Access.Summary) : Prop where
  point : y.point = x.point
  value : y.value = x.value
  type : y.type = x.type
  kind : y.kind = x.kind
  sites : ∀ p ∈ x.sites, ∃ q ∈ y.sites, q.1 = p.1 ∧ p.2 ⊆ q.2

namespace View

variable {A B : View} {kinds : Op → Crossing} {index i : Int} {x : Access.Summary}

/-- A larger view has every transfer, with at least its values. -/
theorem transfers_mono (h : A ≤ B) {v : Name} {p : (Int × Int) × Set Name}
    (hp : p ∈ A.transfers v) : ∃ q ∈ B.transfers v, q.1 = p.1 ∧ p.2 ⊆ q.2 := by
  obtain ⟨hpoint, hvalues⟩ := hp
  refine ⟨(p.1, {w | B.noted v p.1 (some w)}), ⟨h.noted v p.1 none hpoint, rfl⟩, rfl, ?_⟩
  rw [hvalues]
  exact fun w hw => h.noted v p.1 (some w) hw

theorem exposures_mono (h : A ≤ B) {point : Point} {operands : List (Value × AccessKind)}
    (hx : x ∈ A.exposures point operands) : ∃ y ∈ B.exposures point operands, x.Within y := by
  obtain ⟨e, he, hsend, ⟨k, hk⟩, rfl⟩ := hx
  exact ⟨⟨point, e.1.name, e.1.type.name, e.2, B.transfers e.1.name⟩,
    ⟨e, he, hsend, ⟨k, h.noted _ k none hk⟩, rfl⟩, rfl, rfl, rfl, rfl,
    fun _ hp => transfers_mono h hp⟩

/-- Operations meet every access again from a larger view; the induction is on them. -/
theorem opExposures_mono (h : A ≤ B) (hB : B.Lawful) {label : Name} {ops : List Op}
    (hx : x ∈ opExposures kinds index label i A ops) :
    ∃ y ∈ opExposures kinds index label i B ops, x.Within y := by
  induction ops generalizing i A B with
  | nil => exact hx.elim
  | cons op rest ih =>
    rcases hx with hx | hx
    · obtain ⟨y, hy, hxy⟩ := exposures_mono h hx
      exact ⟨y, .inl hy, hxy⟩
    · obtain ⟨y, hy, hxy⟩ := ih (apply_mono h hB _ _ op) (hB.apply _ _ op) hx
      exact ⟨y, .inr hy, hxy⟩

theorem blockExposures_mono (h : A ≤ B) (hB : B.Lawful) {b : Block}
    (hx : x ∈ blockExposures kinds index b A) :
    ∃ y ∈ blockExposures kinds index b B, x.Within y := by
  rcases hx with hx | hx
  · obtain ⟨y, hy, hxy⟩ := opExposures_mono h hB hx
    exact ⟨y, .inl hy, hxy⟩
  · obtain ⟨y, hy, hxy⟩ := exposures_mono (passBlock_mono h hB b) hx
    exact ⟨y, .inr hy, hxy⟩

end View

/-- Every access is met again, in the same way and after transfers at the same
    points at least, which hand over the same values at least. -/
def Covers (l' l : List Access) : Prop :=
  ∀ a ∈ l, ∃ b ∈ l', b.point = a.point ∧ b.value = a.value ∧ b.kind = a.kind ∧
    ∀ x ∈ a.sites, ∃ y ∈ b.sites, y.point.key = x.point.key ∧ ∀ w ∈ x.values, w ∈ y.values

/-- Accesses cover others if their summaries do. -/
theorem covers_of_summaries {l l' : List Access}
    (h : ∀ x ∈ summaries l, ∃ y ∈ summaries l', x.Within y) : Covers l' l := by
  intro a ha
  obtain ⟨-, ⟨b, hb, rfl⟩, hwithin⟩ := h a.summary ⟨a, ha, rfl⟩
  refine ⟨b, hb, hwithin.point, hwithin.value, hwithin.kind, ?_⟩
  intro x hx
  obtain ⟨-, ⟨y, hy, rfl⟩, hkey, hvalues⟩ :=
    hwithin.sites (x.point.key, {w | w ∈ x.values}) ⟨x, hx, rfl⟩
  exact ⟨y, hy, hkey, fun w hw => hvalues hw⟩

-- ============================================================================
-- The order of states
-- ============================================================================

namespace Regions

variable {P : Site → Prop} {s t : Regions}

/-- Joining `s` into `t` changes nothing. -/
def Le (s t : Regions) : Prop := ∃ u, s.join t = .ok u ∧ u.same t = .ok true

/-- Where points determine sites, states are ordered as their views are. -/
theorem le_iff_view_le (hP : Site.Closed P) (hcoh : Site.Coherent P) (hs : s.WellFormed P)
    (ht : t.WellFormed P) : s.Le t ↔ s.view ≤ t.view := by
  obtain ⟨u, hu, huwf, hjoin⟩ := join_spec hP hs ht
  constructor
  · rintro ⟨u', hu', hsame⟩
    obtain rfl := Except.ok.inj (hu.symm.trans hu')
    rw [← view_of_same hcoh huwf ht hsame]
    exact hjoin.upper s.view (.inl rfl)
  · intro hle
    refine ⟨u, hu, same_of_view hcoh huwf ht (le_antisymm ?_ (hjoin.upper t.view (.inr rfl)))⟩
    apply hjoin.least t.view (lawful_view ht)
    rintro B (rfl | rfl)
    · exact hle
    · exact le_refl _

end Regions

-- ============================================================================
-- Layouts
-- ============================================================================

/-- The call that stands at each point, if one does. -/
abbrev Layout := Int × Int → Option Call

/-- A site has the callee, the kind and the source of the call at its point. -/
def Site.Fits {σ : Type} (f : Func) (c : Classifier σ) (layout : Layout) (x : Site) : Prop :=
  ∃ call, layout x.point.key = some call ∧ x.callee = call.callee ∧
    (∀ memory, (c.classify memory f call).1 = x.kind) ∧ x.source = f.domain

/-- If an operation is a call, it is the call at the point. -/
def Layout.Has (layout : Layout) (k : Int × Int) (op : Op) : Prop :=
  ∀ call, op = .call call → layout k = some call

section Layouts

variable {σ : Type} {f : Func} {c : Classifier σ} {layout : Layout}

theorem fits_closed (f : Func) (c : Classifier σ) (layout : Layout) :
    Site.Closed (Site.Fits f c layout) := by
  rintro x y ⟨call, hcall, hcallee, hkind, hsource⟩ - -
  refine ⟨call, ?_, ?_, ?_, ?_⟩
  · rw [Site.point_merge, hcall]
  · rw [Site.callee_merge, hcallee]
  · rw [Site.kind_merge]
    exact hkind
  · rw [Site.source_merge, hsource]

/-- Sites that fit a function agree where they have one point. -/
theorem fits_coherent (f : Func) (c : Classifier σ) (layout : Layout) (memory : σ) :
    Site.Coherent (Site.Fits f c layout) := by
  rintro x y ⟨call, hcall, hcallee, hkind, hsource⟩ ⟨call', hcall', hcallee', hkind', hsource'⟩ hxy
  rw [hxy, hcall'] at hcall
  obtain rfl := Option.some.inj hcall
  exact ⟨hcallee.trans hcallee'.symm, (hkind memory).symm.trans (hkind' memory),
    hsource.trans hsource'.symm⟩

/-- A call makes a site that fits its function. -/
theorem fits_makes (hc : c.Steady) (memory : σ) {point : Point} {op : Op}
    (hhas : layout.Has point.key op) :
    f.Makes (Site.Fits f c layout) (c.crossing memory f op).1 point op := by
  rintro call rfl - values types - - -
  exact ⟨call, hhas call rfl, rfl, fun m => hc m memory f call, rfl⟩

end Layouts

-- ============================================================================
-- Monotonicity
-- ============================================================================

namespace Func

variable {σ : Type} {f : Func} {c : Classifier σ} {layout : Layout} {P : Site → Prop}
  {s t : Regions} {kinds : Op → Crossing}

theorem passOp_le (hP : Site.Closed P) (hcoh : Site.Coherent P) (hs : s.WellFormed P)
    (ht : t.WellFormed P) (hle : s.view ≤ t.view) (hc : c.Answers f kinds) (watch : Bool)
    (memory memory' : σ) {point : Point} {op : Op} (hmakes : f.Makes P (kinds op) point op) :
    ∃ p q, f.passOp c watch memory s point op = .ok p ∧
      f.passOp c watch memory' t point op = .ok q ∧ p.regions.Le q.regions ∧
      (watch = true → Covers q.accesses p.accesses) := by
  obtain ⟨p, hp, hpwf, hpview, -⟩ := passOp_spec hP hs hc watch memory hmakes
  obtain ⟨q, hq, hqwf, hqview, -⟩ := passOp_spec hP ht hc watch memory' hmakes
  refine ⟨p, q, hp, hq, ?_, ?_⟩
  · rw [Regions.le_iff_view_le hP hcoh hpwf hqwf, hpview, hqview]
    exact View.apply_mono hle (Regions.lawful_view ht) _ _ op
  · rintro rfl
    apply covers_of_summaries
    rw [summaries_passOp hs hp, summaries_passOp ht hq]
    exact fun _ hx => View.exposures_mono hle hx

/-- A block keeps the order of states, and meets every access again from the larger
    one. -/
theorem passBlock_le (hP : Site.Closed P) (hcoh : Site.Coherent P) (hs : s.WellFormed P)
    (ht : t.WellFormed P) (hle : s.view ≤ t.view) (hc : c.Answers f kinds) (watch : Bool)
    (memory memory' : σ) {index : Int} {b : Block} (hmakes : f.BlockMakes P kinds index b) :
    ∃ p q, f.passBlock c watch memory s index b = .ok p ∧
      f.passBlock c watch memory' t index b = .ok q ∧ p.regions.Le q.regions ∧
      (watch = true → Covers q.accesses p.accesses) := by
  have hlaw := Regions.lawful_view ht
  obtain ⟨p, hp, hpwf, hpview, -⟩ := passBlock_spec hP hs hc watch memory index hmakes
  obtain ⟨q, hq, hqwf, hqview, -⟩ := passBlock_spec hP ht hc watch memory' index hmakes
  refine ⟨p, q, hp, hq, ?_, ?_⟩
  · rw [Regions.le_iff_view_le hP hcoh hpwf hqwf, hpview, hqview]
    exact View.passBlock_mono hle hlaw b
  · rintro rfl
    apply covers_of_summaries
    rw [summaries_passBlock hP hs hc hmakes hp, summaries_passBlock hP ht hc hmakes hq]
    exact fun _ hx => View.blockExposures_mono hle hlaw hx

/-- Transfer functions are monotone. Let the classifier be steady, and let a layout
    tell the call at every point, which the sites of two states fit. If the first
    state is below the second, then so it is after any operation and after any
    block that the layout has, and every access met from the first is met from the
    second after transfers at the same points at least. -/
theorem transfer_monotone (hc : c.Steady) (hs : s.Built fun _ => True)
    (ht : t.Built fun _ => True) (hfits : ∀ v x, s.Carries v x → x.Fits f c layout)
    (hfits' : ∀ v x, t.Carries v x → x.Fits f c layout) (hle : s.Le t) (watch : Bool)
    (memory memory' : σ) :
    (∀ (point : Point) op, layout.Has point.key op →
      ∃ p q, f.passOp c watch memory s point op = .ok p ∧
        f.passOp c watch memory' t point op = .ok q ∧ p.regions.Le q.regions ∧
        (watch = true → Covers q.accesses p.accesses)) ∧
    ∀ (index : Int) b, (∀ (j : Nat) op, b.ops[j]? = some op → layout.Has (index, j) op) →
      ∃ p q, f.passBlock c watch memory s index b = .ok p ∧
        f.passBlock c watch memory' t index b = .ok q ∧ p.regions.Le q.regions ∧
        (watch = true → Covers q.accesses p.accesses) := by
  have hP := fits_closed f c layout
  have hcoh := fits_coherent f c layout memory
  have hs := (hs.wellFormed Site.closed_true).restrict hfits
  have ht := (ht.wellFormed Site.closed_true).restrict hfits'
  have hview := (Regions.le_iff_view_le hP hcoh hs ht).1 hle
  have hanswers := hc.answers f memory
  refine ⟨fun point op hhas => ?_, fun index b hhas => ?_⟩
  · exact passOp_le hP hcoh hs ht hview hanswers watch memory memory' (fits_makes hc memory hhas)
  · exact passBlock_le hP hcoh hs ht hview hanswers watch memory memory'
      fun j op hj => fits_makes hc memory (hhas j op hj)

/-- The call of the loop. -/
def loopCall : Call :=
  { callee := "send", args := [⟨"y", ⟨"Box", false⟩⟩], domain := some "worker" }

/-- The layout of the loop: its one call stands second in its block. -/
def loopLayout : Layout := fun k => if k = (1, 1) then some loopCall else none

/-- What the call leaves behind. -/
def loopSite : Site := sendingLoop.siteOf loopCall .entering ⟨1, 1, "loop"⟩ ["y"] ["Box"]

/-- The parameter was handed over. -/
def parameterSent : Except Untracked Regions := (Regions.empty.track "x").mark "x" loopSite

/-- The parameter was handed over together with a value built from it. -/
def bothSent : Except Untracked Regions := do
  let (_, s) ← ((Regions.empty.track "x").track "y").union "x" ["y"]
  s.mark "y" loopSite

theorem loopSite_fits : loopSite.Fits sendingLoop (Classifier.asWritten (σ := Unit)) loopLayout :=
  ⟨loopCall, rfl, rfl, fun _ => rfl, rfl⟩

theorem parameterSent_le_bothSent : ∃ s t, parameterSent = .ok s ∧ bothSent = .ok t ∧ s.Le t ∧
    ((s.Built fun _ => True) ∧ t.Built fun _ => True) ∧
    (∀ v x, s.Carries v x → x.Fits sendingLoop (Classifier.asWritten (σ := Unit)) loopLayout) ∧
    ∀ v x, t.Carries v x → x.Fits sendingLoop (Classifier.asWritten (σ := Unit)) loopLayout := by
  have hsome : parameterSent.toOption.isSome = true ∧ bothSent.toOption.isSome = true := by
    decide +kernel
  obtain ⟨s, hs⟩ := exists_ok_of_isSome hsome.1
  obtain ⟨t, ht⟩ := exists_ok_of_isSome hsome.2
  have hle : (do (← (← parameterSent).join (← bothSent)).same (← bothSent)) = .ok true := by
    decide +kernel
  rw [hs, ht] at hle
  have hle : (s.join t >>= fun u => u.same t) = .ok true := hle
  obtain ⟨u, hjoin, hsame⟩ := ok_of_bind hle
  have hbuilt : s.Built (Site.Fits sendingLoop (Classifier.asWritten (σ := Unit)) loopLayout) :=
    (Regions.Built.empty.track "x").mark loopSite_fits hs
  have hbuilt' : t.Built (Site.Fits sendingLoop (Classifier.asWritten (σ := Unit)) loopLayout) := by
    obtain ⟨⟨top, w⟩, hunion, hmark⟩ := ok_of_bind ht
    exact (((Regions.Built.empty.track "x").track "y").union hunion).mark loopSite_fits hmark
  have hclosed := fits_closed sendingLoop (Classifier.asWritten (σ := Unit)) loopLayout
  exact ⟨s, t, hs, ht, ⟨u, hjoin, hsame⟩,
    ⟨hbuilt.mono fun _ _ => trivial, hbuilt'.mono fun _ _ => trivial⟩,
    fun v x => Regions.carries_property (hbuilt.wellFormed hclosed),
    fun v x => Regions.carries_property (hbuilt'.wellFormed hclosed)⟩

/-- After the loop the larger state reports the use of the parameter if the smaller
    one does. -/
theorem sendingLoop_monotone : ∃ s t p q, parameterSent = .ok s ∧ bothSent = .ok t ∧ s.Le t ∧
    sendingLoop.passBlock (Classifier.asWritten (σ := Unit)) true () s 2
      ⟨"done", [.use ⟨"x", ⟨"Box", false⟩⟩ .read {}], some (.ret none {})⟩ = .ok p ∧
    sendingLoop.passBlock (Classifier.asWritten (σ := Unit)) true () t 2
      ⟨"done", [.use ⟨"x", ⟨"Box", false⟩⟩ .read {}], some (.ret none {})⟩ = .ok q ∧
    p.regions.Le q.regions ∧ Covers q.accesses p.accesses := by
  obtain ⟨s, t, hs, ht, hle, ⟨hbuilt, hbuilt'⟩, hfits, hfits'⟩ := parameterSent_le_bothSent
  have hhas : ∀ (j : Nat) op, [Op.use ⟨"x", ⟨"Box", false⟩⟩ .read {}][j]? = some op →
      loopLayout.Has (2, j) op := by
    intro j op hop call hcall
    rw [List.getElem?_eq_some_iff] at hop
    obtain ⟨hj, hop⟩ := hop
    obtain rfl : j = 0 := by simpa using hj
    rw [hcall] at hop
    cases hop
  obtain ⟨p, q, hp, hq, hpq, hcovers⟩ := (transfer_monotone asWritten_steady hbuilt hbuilt' hfits
    hfits' hle true () ()).2 2 ⟨"done", _, some (.ret none {})⟩ hhas
  exact ⟨s, t, p, q, hs, ht, hle, hp, hq, hpq, hcovers rfl⟩

end Func

end Sendability
