/-
  Collating accesses neither loses nor repeats anything.

  The groups behind the diagnostics are filed in one pass, so they are described by
  what stands where after one more access is filed: the access under a site, a point
  and a value is the first that was filed there (`entry_add`), and the site has the
  values of all sites of its point (`hands_add`). Sorting then puts the groups, and
  the accesses of each, into strict order, since no point and no pair of a point and
  a value stands twice (`groups_before`, `sorted_before`).

  `groupAccesses_exact` puts this together for any list of accesses, with the
  diagnostics that are made of the groups and the table of diagnostics by site.
-/

import Mathlib.Data.List.Forall2
import Sendability.Proofs.Provenance

namespace Sendability

-- ============================================================================
-- Orders
-- ============================================================================

namespace Access

/-- The point and the value of an access. -/
def subject (a : Access) : (Int × Int) × Name := (a.point.key, a.value)

/-- Whether an access has a site at the point `k`. -/
def isUnder (a : Access) (k : Int × Int) : Bool := a.sites.any fun s => s.point.key = k

/-- One access comes before another: by point, then by value. -/
def Before (a b : Access) : Prop :=
  a.point.Before b.point ∨ (a.point.key = b.point.key ∧ a.value < b.value)

theorem isUnder_iff (a : Access) (k : Int × Int) :
    a.isUnder k = true ↔ ∃ s ∈ a.sites, s.point.key = k := by
  simp [isUnder]

end Access

namespace Group

theorem accessLe_iff (a b : Access) : accessLe a b = true ↔
    a.point.Before b.point ∨ (a.point.key = b.point.key ∧ a.value ≤ b.value) := by
  rw [accessLe, Point.before_iff]
  by_cases h : a.point.key = b.point.key <;> simp [h]

theorem accessLe_total (a b : Access) : accessLe a b ∨ accessLe b a := by
  simp only [accessLe_iff]
  by_cases h : a.point.key = b.point.key
  · rcases Text.le_total a.value b.value with hle | hle
    · exact .inl (.inr ⟨h, hle⟩)
    · exact .inr (.inr ⟨h.symm, hle⟩)
  · rcases Point.le_total a.point b.point with hle | hle
    · exact .inl (.inl ((Point.before_iff _ _).2 ⟨hle, h⟩))
    · exact .inr (.inl ((Point.before_iff _ _).2 ⟨hle, Ne.symm h⟩))

theorem accessLe_trans (a b c : Access) (hab : accessLe a b) (hbc : accessLe b c) :
    accessLe a c := by
  simp only [accessLe_iff, Point.Before, Point.key, Prod.mk.injEq] at hab hbc ⊢
  rcases hab with hab | ⟨hab, hle⟩
  · left
    omega
  · rcases hbc with hbc | ⟨hbc, hle'⟩
    · left
      omega
    · exact .inr ⟨⟨hab.1.trans hbc.1, hab.2.trans hbc.2⟩, Text.le_trans hle hle'⟩

/-- Of two accesses in order that differ in point or value, one comes before the
    other. -/
theorem before_of_accessLe {a b : Access} (h : accessLe a b) (hne : a.subject ≠ b.subject) :
    a.Before b := by
  rcases (accessLe_iff a b).1 h with h | ⟨hkey, hle⟩
  · exact .inl h
  · rcases Text.lt_or_eq_or_lt a.value b.value with hlt | heq | hgt
    · exact .inr ⟨hkey, hlt⟩
    · exact absurd (Prod.ext hkey heq) hne
    · exact absurd hgt hle

-- ============================================================================
-- Filing
-- ============================================================================

/-- The access that is filed under the point `k` for a point and a value. -/
def entry (t : Table (Int × Int) Group) (k : Int × Int) (q : (Int × Int) × Name) : Option Access :=
  (t.get? k).bind fun g => g.accesses.get? q

/-- The site filed under the point `k` hands the value `w` over. -/
def Hands (t : Table (Int × Int) Group) (k : Int × Int) (w : Name) : Prop :=
  ∃ g, t.get? k = some g ∧ w ∈ g.site.values

variable (t : Table (Int × Int) Group)

/-- What stands under a site stays, and an access is entered where none stands. -/
theorem entry_add (a : Access) (s : Site) (k : Int × Int) (q : (Int × Int) × Name) :
    entry (add t a s) k q =
      (entry t k q).or (if s.point.key = k ∧ a.subject = q then some a else none) := by
  rw [entry, entry, get?_add]
  by_cases hk : s.point.key = k
  · subst hk
    rw [if_pos rfl]
    cases t.get? s.point.key with
    | none => simp [Table.get?_insert, Access.subject]
    | some g =>
      -- the bucket is looked up at the pair of the access or at another one
      by_cases hq : a.subject = q
      · subst hq
        show (if g.accesses.contains a.subject then g.accesses
          else g.accesses.insert a.subject a).get? a.subject = _
        cases hg : g.accesses.get? a.subject with
        | none => simp [Table.contains, hg]
        | some b => simp [Table.contains, hg]
      · show (if g.accesses.contains a.subject then g.accesses
          else g.accesses.insert a.subject a).get? q = _
        split
        · simp [hq]
        · simp [Table.get?_insert, hq]
  · simp [hk]

/-- A site takes up the values of what is filed at its point. -/
theorem hands_add (a : Access) (s : Site) (k : Int × Int) (w : Name) :
    Hands (add t a s) k w ↔ Hands t k w ∨ (s.point.key = k ∧ w ∈ s.values) := by
  rw [Hands, Hands, get?_add]
  by_cases hk : s.point.key = k
  · subst hk
    rw [if_pos rfl]
    cases t.get? s.point.key with
    | none => simp
    | some g => simp
  · simp [hk]

theorem entry_foldl_add (pairs : List (Access × Site)) (k : Int × Int) (q : (Int × Int) × Name) :
    entry (pairs.foldl (fun t x => add t x.1 x.2) t) k q = (entry t k q).or
      ((pairs.find? fun x => x.2.point.key = k ∧ x.1.subject = q).map Prod.fst) := by
  induction pairs generalizing t with
  | nil => simp
  | cons x pairs ih =>
    rw [List.foldl_cons, ih, entry_add, List.find?_cons, Option.or_assoc]
    by_cases hx : x.2.point.key = k ∧ x.1.subject = q
    · simp [hx]
    · simp [hx]

theorem hands_foldl_add (pairs : List (Access × Site)) (k : Int × Int) (w : Name) :
    Hands (pairs.foldl (fun t x => add t x.1 x.2) t) k w ↔
      Hands t k w ∨ ∃ x ∈ pairs, x.2.point.key = k ∧ w ∈ x.2.values := by
  induction pairs generalizing t with
  | nil => simp
  | cons x pairs ih =>
    rw [List.foldl_cons, ih, hands_add, or_assoc]
    simp only [List.mem_cons, exists_eq_or_imp]

end Group

-- ============================================================================
-- Groups
-- ============================================================================

/-- The first access that has a site at a point is the first pair of an access and
    such a site. -/
theorem find?_sitePairs (accesses : List Access) (k : Int × Int) (q : (Int × Int) × Name) :
    ((sitePairs accesses).find? fun x => x.2.point.key = k ∧ x.1.subject = q).map Prod.fst =
      accesses.find? fun a => a.isUnder k ∧ a.subject = q := by
  induction accesses with
  | nil => rfl
  | cons a rest ih =>
    have hhead : (a.sites.map fun s => (a, s)).find?
        (fun x => x.2.point.key = k ∧ x.1.subject = q) =
          if a.subject = q then (a.sites.find? fun s => s.point.key = k).map fun s => (a, s)
          else none := by
      rw [List.find?_map, Function.comp_def]
      by_cases hq : a.subject = q
      · simp [hq]
      · simp [hq]
    have hunder : a.isUnder k = (a.sites.find? fun s => s.point.key = k).isSome := by
      rw [Access.isUnder, List.isSome_find?]
    rw [sitePairs, List.flatMap_cons, List.find?_append, ← sitePairs, hhead, List.find?_cons,
      hunder]
    by_cases hq : a.subject = q
    · cases a.sites.find? fun s => s.point.key = k with
      | none => simpa [hq] using ih
      | some s => simp [hq]
    · simpa [hq] using ih

/-- The access filed under a point for a point and a value is the first one. -/
theorem entry_groupTable (accesses : List Access) (k : Int × Int) (q : (Int × Int) × Name) :
    Group.entry (groupTable accesses) k q =
      accesses.find? fun a => a.isUnder k ∧ a.subject = q := by
  rw [groupTable, Group.entry_foldl_add, find?_sitePairs]
  rfl

theorem hands_groupTable (accesses : List Access) (k : Int × Int) (w : Name) :
    Group.Hands (groupTable accesses) k w ↔
      ∃ a ∈ accesses, ∃ s ∈ a.sites, s.point.key = k ∧ w ∈ s.values := by
  rw [groupTable, Group.hands_foldl_add]
  constructor
  · rintro (⟨g, hg, -⟩ | ⟨⟨a, s⟩, hx, hk, hw⟩)
    · cases hg
    · obtain ⟨ha, hs⟩ := (mem_sitePairs accesses a s).1 hx
      exact ⟨a, ha, s, hs, hk, hw⟩
  · rintro ⟨a, ha, s, hs, hk, hw⟩
    exact .inr ⟨(a, s), (mem_sitePairs accesses a s).2 ⟨ha, hs⟩, hk, hw⟩

theorem sorted_groupTable (accesses : List Access) : Group.Sorted (groupTable accesses) :=
  (Group.foldl_add_spec (sitePairs accesses) Group.sorted_empty).1

/-- In a list whose elements differ under `g`, those with a given value are what a
    look-up finds. -/
theorem filter_eq_toList {α β : Type} [DecidableEq β] {g : α → β} {l : List α}
    (hnodup : (l.map g).Nodup) {q : β} {o : Option α} (ho : ∀ a, o = some a ↔ a ∈ l ∧ g a = q) :
    l.filter (fun a => g a = q) = o.toList := by
  have hmem : ∀ a, a ∈ l.filter (fun a => g a = q) ↔ o = some a := by
    intro a
    rw [List.mem_filter, decide_eq_true_iff, ho]
  cases o with
  | none =>
    rw [Option.toList_none, List.eq_nil_iff_forall_not_mem]
    intro a ha
    cases (hmem a).1 ha
  | some b =>
    have hfilter : (l.filter fun a => g a = q).Nodup := (List.Nodup.of_map g hnodup).filter _
    apply List.perm_singleton.1
    refine (List.perm_ext_iff_of_nodup hfilter (List.nodup_singleton b)).2 ?_
    intro a
    rw [hmem, List.mem_singleton, Option.some.injEq, eq_comm]

namespace Group

variable {t : Table (Int × Int) Group} {k : Int × Int} {g : Group}

/-- No pair of a point and a value stands twice under a site. -/
theorem nodup_subjects (ht : Sorted t) (hg : t.get? k = some g) :
    (g.sorted.map Access.subject).Nodup := by
  have hperm : (g.sorted.map Access.subject).Perm (g.accesses.values.map Access.subject) :=
    (perm_sortBy _ _).map _
  have hkeys : g.accesses.values.map Access.subject = g.accesses.keys :=
    Table.map_values_eq_keys (ht k g hg).2
  rw [hperm.nodup_iff, hkeys]
  exact g.accesses.nodup

theorem sorted_before (ht : Sorted t) (hg : t.get? k = some g) :
    g.sorted.Pairwise Access.Before := by
  have hle : g.sorted.Pairwise fun a b => accessLe a b :=
    pairwise_sortBy accessLe_total accessLe_trans _
  have hne : g.sorted.Pairwise fun a b => a.subject ≠ b.subject :=
    List.pairwise_map.1 (nodup_subjects ht hg)
  refine (hle.and hne).imp ?_
  rintro a b ⟨hab, hsubject⟩
  exact before_of_accessLe hab hsubject

/-- Under a site stands, for a point and a value, the access that was filed there. -/
theorem filter_sorted (ht : Sorted t) (hg : t.get? k = some g) (q : (Int × Int) × Name) :
    g.sorted.filter (fun a => a.subject = q) = (entry t k q).toList := by
  apply filter_eq_toList (nodup_subjects ht hg)
  intro a
  have hentry : entry t k q = g.accesses.get? q := by
    rw [entry, hg]
    rfl
  rw [hentry, mem_sorted]
  constructor
  · intro ha
    exact ⟨⟨q, ha⟩, (ht k g hg).2 q a ha⟩
  · rintro ⟨⟨q', ha⟩, rfl⟩
    obtain rfl : a.subject = q' := (ht k g hg).2 q' a ha
    exact ha

end Group

/-- The groups of a list of accesses as they stand in their table. -/
theorem groupAccesses_eq (accesses : List Access) :
    groupAccesses accesses =
      (sortBy (fun a b : Group => a.site.point.le b.site.point) (groupTable accesses).values).map
        fun g => (g.site, g.sorted) := by
  rw [groupAccesses, foldl_groups]

/-- No two groups have one point. -/
theorem nodup_points (accesses : List Access) :
    ((groupAccesses accesses).map fun g => g.1.point.key).Nodup := by
  have hperm : ((groupAccesses accesses).map fun g => g.1.point.key).Perm
      ((groupTable accesses).values.map fun g => g.site.point.key) := by
    rw [groupAccesses_eq, List.map_map]
    exact (perm_sortBy _ _).map _
  have hkeys : ((groupTable accesses).values.map fun g => g.site.point.key) =
      (groupTable accesses).keys :=
    Table.map_values_eq_keys fun k g hg => (sorted_groupTable accesses k g hg).1
  rw [hperm.nodup_iff, hkeys]
  exact (groupTable accesses).nodup

theorem groups_before (accesses : List Access) :
    (groupAccesses accesses).Pairwise fun g h => g.1.point.Before h.1.point := by
  have hle : (groupAccesses accesses).Pairwise fun g h => g.1.point.le h.1.point := by
    rw [groupAccesses_eq, List.pairwise_map]
    exact pairwise_sortBy (fun a b => Point.le_total a.site.point b.site.point)
      (fun a b c => Point.le_trans a.site.point b.site.point c.site.point) _
  have hne : (groupAccesses accesses).Pairwise fun g h => g.1.point.key ≠ h.1.point.key :=
    List.pairwise_map.1 (nodup_points accesses)
  refine (hle.and hne).imp ?_
  intro g h hgh
  exact (Point.before_iff g.1.point h.1.point).2 hgh

/-- A group of some accesses: its site hands over what the sites of its point do, and
    for every point and value it has the first access with a site there, in order. -/
structure IsGroup (accesses : List Access) (g : Site × List Access) : Prop where
  values : ∀ w, w ∈ g.1.values ↔
    ∃ a ∈ accesses, ∃ s ∈ a.sites, s.point.key = g.1.point.key ∧ w ∈ s.values
  entries : ∀ q, g.2.filter (fun a => a.subject = q) =
    (accesses.find? fun a => a.isUnder g.1.point.key ∧ a.subject = q).toList
  ordered : g.2.Pairwise Access.Before

theorem isGroup_of_mem {accesses : List Access} {g : Site × List Access}
    (hg : g ∈ groupAccesses accesses) : IsGroup accesses g := by
  have hsorted := sorted_groupTable accesses
  obtain ⟨k, x, hx, rfl⟩ := (mem_groupAccesses accesses g).1 hg
  obtain rfl : x.site.point.key = k := (hsorted k x hx).1
  refine ⟨?_, ?_, Group.sorted_before hsorted hx⟩
  · intro w
    rw [← hands_groupTable]
    constructor
    · exact fun hw => ⟨x, hx, hw⟩
    · rintro ⟨y, hy, hw⟩
      obtain rfl : x = y := Option.some.inj (hx.symm.trans hy)
      exact hw
  · intro q
    rw [Group.filter_sorted hsorted hx, entry_groupTable]

/-- The groups have the points of the sites. -/
theorem exists_group_iff (accesses : List Access) (k : Int × Int) :
    (∃ g ∈ groupAccesses accesses, g.1.point.key = k) ↔ ∃ a ∈ accesses, a.isUnder k = true := by
  have hspec := groupAccesses_spec accesses k
  constructor
  · rintro ⟨g, hg, rfl⟩
    have hne := (groupAccesses_backed Site.closed_true (fun _ _ _ _ => trivial) hg).2.1
    obtain ⟨a, ha⟩ := List.exists_mem_of_ne_nil _ hne
    obtain ⟨b, hb, -, -, hs⟩ := (hspec a.point.key a.value).1 ⟨g, hg, rfl, a, ha, rfl, rfl⟩
    exact ⟨b, hb, (b.isUnder_iff _).2 hs⟩
  · rintro ⟨a, ha, hs⟩
    obtain ⟨g, hg, hk, -⟩ :=
      (hspec a.point.key a.value).2 ⟨a, ha, rfl, rfl, (a.isUnder_iff k).1 hs⟩
    exact ⟨g, hg, hk⟩

theorem count_groups (accesses : List Access) (k : Int × Int) :
    (groupAccesses accesses).countP (fun g => g.1.point.key = k) =
      if ∃ a ∈ accesses, ∃ s ∈ a.sites, s.point.key = k then 1 else 0 := by
  have hcount : ((groupAccesses accesses).map fun g => g.1.point.key).count k =
      (groupAccesses accesses).countP (fun g => g.1.point.key = k) := by
    rw [List.count, List.countP_map]
    exact List.countP_congr fun g _ => by simp
  rw [← hcount, (nodup_points accesses).count]
  simp only [List.mem_map, exists_group_iff, Access.isUnder_iff]

-- ============================================================================
-- Diagnostics
-- ============================================================================

/-- The diagnostic of a group stands at the site, and has a note at every access. -/
structure Diagnostic.Shows (g : Site × List Access) (d : Diagnostic) : Prop where
  span : d.span = g.1.span
  notes : List.Forall₂ (fun a n => n.span = a.span ∧ n.message = a.message g.1) g.2 d.notes

theorem shows_siteDiagnostic (severity : Text) (g : Site × List Access) :
    (siteDiagnostic severity g.1 g.2).Shows g := by
  refine ⟨rfl, ?_⟩
  rw [siteDiagnostic, List.forall₂_map_right_iff]
  exact List.forall₂_same.2 fun a _ => ⟨rfl, rfl⟩

theorem synthesize_shows (severity : Text) (accesses : List Access) :
    List.Forall₂ (fun g d => d.Shows g) (groupAccesses accesses)
      (synthesize severity accesses) := by
  rw [synthesize, List.forall₂_map_right_iff]
  exact List.forall₂_same.2 fun g _ => shows_siteDiagnostic severity g

/-- The point of a group leads to the diagnostic of that group alone. -/
theorem Func.bySite_at (f : Func) (severity : Text) (a : Analysis) {g : Site × List Access}
    (hg : g ∈ groupAccesses a.accesses) :
    (f.resultOf severity a).bySite.filter (fun e => e.1.key = g.1.point.key) =
      [(g.1.point, siteDiagnostic severity g.1 g.2)] := by
  have hnodup : ((f.resultOf severity a).bySite.map fun e => e.1.key).Nodup := by
    rw [Func.bySite_resultOf, List.map_map]
    exact nodup_points a.accesses
  have hfound : ∀ e, some (g.1.point, siteDiagnostic severity g.1 g.2) = some e ↔
      e ∈ (f.resultOf severity a).bySite ∧ e.1.key = g.1.point.key := by
    intro e
    have hentry := f.mem_bySite_of_group severity a hg
    constructor
    · intro h
      cases h
      exact ⟨hentry, rfl⟩
    · rintro ⟨he, hkey⟩
      exact congrArg some (List.inj_on_of_nodup_map hnodup hentry he hkey.symm)
  exact filter_eq_toList hnodup hfound

/-- What a check that succeeds has run through. -/
theorem Func.check_cases {σ : Type} {f : Func} {c : Classifier σ} {config : Config}
    {memory memory' : σ} {bound : Option Int} {r : CheckResult}
    (h : f.check config c memory bound = .ok (r, memory')) :
    (config.enabled = false ∧ r = { function := f.name } ∧ memory' = memory) ∨
      config.enabled = true ∧ f.validate = .ok () ∧
        ∃ a, f.solve c memory (bound.getD f.iterationBound) = .ok (a, memory') ∧
          r = f.resultOf config.severity a := by
  rw [check] at h
  split at h
  · rename_i henabled
    split at h
    · cases h
    · rename_i hvalid
      split at h
      · cases h
      · rename_i a m hsolve
        cases h
        exact .inr ⟨henabled, hvalid, a, hsolve, rfl⟩
  · rename_i hoff
    cases h
    exact .inl ⟨by simpa using hoff, rfl, rfl⟩

/-- The diagnostics of a check are those of its groups, and each is found under the
    point of its group. -/
theorem Func.check_bySite {σ : Type} {f : Func} {c : Classifier σ} {config : Config}
    {memory memory' : σ} {bound : Option Int} {result : CheckResult}
    (h : f.check config c memory bound = .ok (result, memory')) :
    result.bySite.map Prod.snd = result.diagnostics ∧
      List.Forall₂ (fun g d => d = siteDiagnostic config.severity g.1 g.2 ∧
        result.bySite.filter (fun e => e.1.key = g.1.point.key) = [(g.1.point, d)])
        result.groups result.diagnostics := by
  rcases Func.check_cases h with ⟨-, rfl, -⟩ | ⟨-, -, a, -, rfl⟩
  · exact ⟨rfl, .nil⟩
  · refine ⟨?_, ?_⟩
    · rw [Func.bySite_resultOf, List.map_map]
      rfl
    · rw [CheckResult.groups, Func.resultOf, synthesize, List.forall₂_map_right_iff]
      exact List.forall₂_same.2 fun g hg => ⟨rfl, f.bySite_at config.severity a hg⟩

/-- Collating any accesses loses and repeats nothing. There is one group for every
    point of a site, in strict program order. A group has, for every point and value,
    the first access with a site at the point of the group, in strict order of points
    and values; its site hands over the values of all sites of its point. Every group
    has its diagnostic, at the site and with a note at every access, in the same
    orders; and checking a function files the diagnostic of every group, and no
    other, under the point of the group. -/
theorem groupAccesses_exact (accesses : List Access) :
    (∀ k, (groupAccesses accesses).countP (fun g => g.1.point.key = k) =
      if ∃ a ∈ accesses, ∃ s ∈ a.sites, s.point.key = k then 1 else 0) ∧
    (groupAccesses accesses).Pairwise (fun g h => g.1.point.Before h.1.point) ∧
    (∀ g ∈ groupAccesses accesses, IsGroup accesses g) ∧
    (∀ severity, List.Forall₂ (fun g d => d.Shows g) (groupAccesses accesses)
      (synthesize severity accesses)) ∧
    ∀ (σ : Type) (f : Func) (c : Classifier σ) (config : Config) (memory memory' : σ)
      (bound : Option Int) (result : CheckResult),
      f.check config c memory bound = .ok (result, memory') →
      result.bySite.map Prod.snd = result.diagnostics ∧
        List.Forall₂ (fun g d => d = siteDiagnostic config.severity g.1 g.2 ∧
          result.bySite.filter (fun e => e.1.key = g.1.point.key) = [(g.1.point, d)])
          result.groups result.diagnostics := by
  refine ⟨count_groups accesses, groups_before accesses, ?_, ?_, ?_⟩
  · intro g hg
    exact isGroup_of_mem hg
  · intro severity
    exact synthesize_shows severity accesses
  · intro σ f c config memory memory' bound result h
    exact Func.check_bySite h

/-- Two calls that hand over one region, each with two values, and three accesses: the
    second repeats the value and the point of the first, with a site that the first
    does not have. -/
def sharedAccesses : List Access :=
  let site (op : Int) (values : List Name) : Site :=
    { point := ⟨0, op, "entry"⟩, callee := "send", kind := .entering, values, types := ["Box"],
      source := "main" }
  [⟨⟨1, 0, "exit"⟩, "y", "Box", .read, [site 1 ["x"]], {}⟩,
    ⟨⟨1, 0, "exit"⟩, "y", "Box", .write, [site 1 ["z"], site 0 ["y", "x"]], {}⟩,
    ⟨⟨0, 2, "entry"⟩, "z", "Box", .read, [site 1 ["x", "y"]], {}⟩]

example : (groupAccesses sharedAccesses).map (fun g => (g.1.values, g.2.map fun a => a.kind)) =
    ([(["y", "x"], [.write]), (["x", "z", "y"], [.read, .read])] :
      List (List Name × List AccessKind)) := by
  decide

/-- The accesses make one group for either call and a diagnostic for each. The loop that
    sends at every turn is checked, and its one diagnostic is filed under the call. -/
theorem sendingLoop_collated :
    (∀ op ∈ [0, 1], (groupAccesses sharedAccesses).countP
      (fun g => g.1.point.key = ((0, op) : Int × Int)) = 1) ∧
    (groupAccesses sharedAccesses).Pairwise (fun g h => g.1.point.Before h.1.point) ∧
    List.Forall₂ (fun g d => d.Shows g) (groupAccesses sharedAccesses)
      (synthesize "error" sharedAccesses) ∧
    ∃ result, Func.sendingLoop.check {} Classifier.asWritten () none = .ok (result, ()) ∧
      result.bySite.map (fun e => e.1.key) = [(1, 1)] ∧
      result.bySite.map Prod.snd = result.diagnostics := by
  obtain ⟨hcount, hbefore, -, hshows, hcheck⟩ := groupAccesses_exact sharedAccesses
  refine ⟨fun op hop => ?_, hbefore, hshows "error", ?_⟩
  · have hsite : ∀ op ∈ [0, 1], ∃ a ∈ sharedAccesses, ∃ s ∈ a.sites,
        s.point.key = ((0, op) : Int × Int) := by decide
    rw [hcount, if_pos (hsite op hop)]
  · have hpoints : (Func.sendingLoop.check {} Classifier.asWritten () none).toOption.map
        (fun r => r.1.bySite.map fun e => e.1.key) = some [(1, 1)] := by
      decide +kernel
    cases h : Func.sendingLoop.check {} Classifier.asWritten () none with
    | error e =>
      rw [h] at hpoints
      cases hpoints
    | ok r =>
      rw [h] at hpoints
      exact ⟨r.1, rfl, Option.some.inj hpoints,
        (hcheck Unit Func.sendingLoop Classifier.asWritten {} () () none r.1 h).1⟩

end Sendability
