/-
  The groups of accesses behind the diagnostics.

  Accesses are filed one by one under each of their sites. `groupAccesses_spec`
  says which value is filed where: under a site at the point `k` stands an access
  of `v` at the point `q` exactly when the analysis met one with a site at `k`.
  Of several accesses of one value at one point the first stays, so the group
  has an access with that point and value and not necessarily every one.
  `groupAccesses_backed` says where a group comes from: every access in it was
  met, and its site is merged from sites of theirs.
-/

import Sendability.Analysis.Checker
import Sendability.Proofs.StateView

namespace Sendability

namespace Group

variable {t : Table (Int × Int) Group}

/-- Groups stand under the points of their sites, and accesses under their own
    points and values. -/
def Sorted (t : Table (Int × Int) Group) : Prop :=
  ∀ k g, t.get? k = some g → g.site.point.key = k ∧
    ∀ q a, g.accesses.get? q = some a → (a.point.key, a.value) = q

/-- An access of a value at a point, given as a pair, is filed under the point `k`. -/
def Filed (t : Table (Int × Int) Group) (k : Int × Int) (q : (Int × Int) × Name) : Prop :=
  ∃ g, t.get? k = some g ∧ q ∈ g.accesses.keys

theorem get?_add (t : Table (Int × Int) Group) (a : Access) (s : Site) (k : Int × Int) :
    (add t a s).get? k = if s.point.key = k then
        some (match t.get? s.point.key with
          | none => ⟨s, Table.empty.insert (a.point.key, a.value) a⟩
          | some g => ⟨g.site.merge s, if g.accesses.contains (a.point.key, a.value) then g.accesses
              else g.accesses.insert (a.point.key, a.value) a⟩)
      else t.get? k := by
  rw [add]
  cases t.get? s.point.key with
  | none => exact Table.get?_insert _ _ _ _
  | some g => exact Table.get?_insert _ _ _ _

theorem Sorted.add (h : Sorted t) (a : Access) (s : Site) : Sorted (Group.add t a s) := by
  intro k g hg
  rw [get?_add] at hg
  split at hg
  · rename_i hk
    subst hk
    obtain rfl := Option.some.inj hg
    cases ht : t.get? s.point.key with
    | none =>
      refine ⟨rfl, ?_⟩
      intro q x hx
      rw [Table.get?_insert] at hx
      split at hx
      · rename_i hq
        obtain rfl := Option.some.inj hx
        exact hq
      · cases hx
    | some g =>
      obtain ⟨hsite, haccesses⟩ := h s.point.key g ht
      refine ⟨by rw [Site.point_merge]; exact hsite, ?_⟩
      intro q x hx
      dsimp only at hx
      split at hx
      · exact haccesses q x hx
      · rw [Table.get?_insert] at hx
        split at hx
        · rename_i hq
          obtain rfl := Option.some.inj hx
          exact hq
        · exact haccesses q x hx
  · exact h k g hg

theorem filed_add (t : Table (Int × Int) Group) (a : Access) (s : Site) (k : Int × Int)
    (q : (Int × Int) × Name) :
    Filed (add t a s) k q ↔
      Filed t k q ∨ (s.point.key = k ∧ (a.point.key, a.value) = q) := by
  unfold Filed
  rw [get?_add]
  by_cases hk : s.point.key = k
  · subst hk
    rw [if_pos rfl]
    cases ht : t.get? s.point.key with
    | none =>
      have hkeys : (Table.empty.insert (a.point.key, a.value) a).keys = [(a.point.key, a.value)] := by
        rw [Table.keys_insert]
        rfl
      simp [hkeys, eq_comm]
    | some g =>
      by_cases hc : g.accesses.contains (a.point.key, a.value) = true
      · -- the value is filed already
        have hmem := (Table.contains_iff _ _).1 hc
        simp only [Option.some.injEq, exists_eq_left', hc, if_true, true_and]
        refine ⟨.inl, ?_⟩
        rintro (h | rfl)
        · exact h
        · exact hmem
      · have hmem : (a.point.key, a.value) ∉ g.accesses.keys :=
          fun h => hc ((Table.contains_iff _ _).2 h)
        simp only [Option.some.injEq, exists_eq_left', hc, true_and]
        rw [if_neg (by simp), Table.keys_insert, if_neg hmem, List.mem_append,
          List.mem_singleton, eq_comm (a := q)]
  · rw [if_neg hk]
    simp [hk]

/-- Filing some accesses one by one. -/
theorem foldl_add_spec (pairs : List (Access × Site)) (h : Sorted t) :
    Sorted (pairs.foldl (fun t x => add t x.1 x.2) t) ∧
      ∀ k q, Filed (pairs.foldl (fun t x => add t x.1 x.2) t) k q ↔
        Filed t k q ∨ ∃ x ∈ pairs, x.2.point.key = k ∧ (x.1.point.key, x.1.value) = q := by
  induction pairs generalizing t with
  | nil => exact ⟨h, by simp⟩
  | cons x pairs ih =>
    obtain ⟨hsorted, hfiled⟩ := ih (h.add x.1 x.2)
    refine ⟨hsorted, ?_⟩
    intro k q
    rw [List.foldl_cons, hfiled, filed_add, or_assoc]
    simp only [List.mem_cons, exists_eq_or_imp]

/-- The sites of all groups satisfy `P`, and what is filed under a point is related
    to it by `M`; no group is empty. -/
def Backed (P : Site → Prop) (M : Access → Int × Int → Prop) (t : Table (Int × Int) Group) : Prop :=
  ∀ k g, t.get? k = some g → P g.site ∧ g.accesses.keys ≠ [] ∧
    ∀ q a, g.accesses.get? q = some a → M a k

theorem Backed.add {P : Site → Prop} {M : Access → Int × Int → Prop} (hP : Site.Closed P)
    (hsorted : Sorted t) (h : Backed P M t) {a : Access} {s : Site} (hs : P s)
    (ha : M a s.point.key) : Backed P M (Group.add t a s) := by
  have hinsert : ∀ (l : Table ((Int × Int) × Name) Access) (q : (Int × Int) × Name),
      (l.insert q a).keys ≠ [] := by
    intro l q
    have hq : q ∈ (l.insert q a).keys := by
      rw [Table.mem_keys_iff, Table.get?_insert, if_pos rfl]
      rfl
    exact List.ne_nil_of_mem hq
  have hmet : ∀ (l : Table ((Int × Int) × Name) Access) (q : (Int × Int) × Name),
      (∀ q x, l.get? q = some x → M x s.point.key) →
      ∀ q' x, (l.insert q a).get? q' = some x → M x s.point.key := by
    intro l q hl q' x hx
    rw [Table.get?_insert] at hx
    split at hx
    · obtain rfl := Option.some.inj hx
      exact ha
    · exact hl q' x hx
  intro k g hg
  rw [get?_add] at hg
  split at hg
  · rename_i hk
    subst hk
    obtain rfl := Option.some.inj hg
    cases ht : t.get? s.point.key with
    | none =>
      refine ⟨hs, hinsert _ _, hmet _ _ ?_⟩
      intro q x hx
      cases hx
    | some g =>
      obtain ⟨hsite, hne, haccesses⟩ := h s.point.key g ht
      refine ⟨hP _ _ hsite hs (hsorted s.point.key g ht).1, ?_⟩
      dsimp only
      split
      · exact ⟨hne, haccesses⟩
      · exact ⟨hinsert _ _, hmet _ _ haccesses⟩
  · exact h k g hg

theorem foldl_add_backed {P : Site → Prop} {M : Access → Int × Int → Prop} (hP : Site.Closed P)
    (pairs : List (Access × Site)) (hpairs : ∀ x ∈ pairs, P x.2 ∧ M x.1 x.2.point.key)
    (hsorted : Sorted t) (h : Backed P M t) :
    Backed P M (pairs.foldl (fun t x => add t x.1 x.2) t) := by
  induction pairs generalizing t with
  | nil => exact h
  | cons x pairs ih =>
    obtain ⟨hx, hmet⟩ := hpairs x (by simp)
    exact ih (fun y hy => hpairs y (List.mem_cons_of_mem _ hy)) (hsorted.add x.1 x.2)
      (h.add hP hsorted hx hmet)

theorem sorted_empty : Sorted Table.empty := by
  intro k g hg
  cases hg

theorem mem_sorted (g : Group) (a : Access) :
    a ∈ g.sorted ↔ ∃ q, g.accesses.get? q = some a := by
  rw [sorted, mem_sortBy, Table.mem_values_iff]

end Group

/-- Each access with each of its sites. -/
def sitePairs (accesses : List Access) : List (Access × Site) :=
  accesses.flatMap fun a => a.sites.map fun s => (a, s)

theorem mem_sitePairs (accesses : List Access) (a : Access) (s : Site) :
    (a, s) ∈ sitePairs accesses ↔ a ∈ accesses ∧ s ∈ a.sites := by
  simp only [sitePairs, List.mem_flatMap, List.mem_map, Prod.mk.injEq]
  refine ⟨?_, fun h => ⟨a, h.1, s, h.2, rfl, rfl⟩⟩
  rintro ⟨a, ha, s, hs, rfl, rfl⟩
  exact ⟨ha, hs⟩

/-- The groups that the accesses are filed in. -/
def groupTable (accesses : List Access) : Table (Int × Int) Group :=
  (sitePairs accesses).foldl (fun t x => Group.add t x.1 x.2) Table.empty

/-- Filing the accesses of a list is filing the pairs of an access and a site. -/
theorem foldl_groups (accesses : List Access) :
    accesses.foldl (fun t a => a.sites.foldl (fun t s => Group.add t a s) t) Table.empty =
      groupTable accesses := by
  rw [groupTable, sitePairs, List.foldl_flatMap]
  simp only [List.foldl_map]

theorem mem_groupAccesses (accesses : List Access) (g : Site × List Access) :
    g ∈ groupAccesses accesses ↔
      ∃ k x, (groupTable accesses).get? k = some x ∧ (x.site, x.sorted) = g := by
  simp only [groupAccesses, foldl_groups, List.mem_map, mem_sortBy, Table.mem_values_iff]
  refine ⟨?_, ?_⟩
  · rintro ⟨x, ⟨k, hx⟩, hg⟩
    exact ⟨k, x, hx, hg⟩
  · rintro ⟨k, x, hx, hg⟩
    exact ⟨x, ⟨k, hx⟩, hg⟩

/-- Under a site at `k` stands an access of `v` at `q` exactly when one was met. -/
theorem groupAccesses_spec (accesses : List Access) (k q : Int × Int) (v : Name) :
    (∃ g ∈ groupAccesses accesses, g.1.point.key = k ∧
        ∃ a ∈ g.2, a.point.key = q ∧ a.value = v) ↔
      ∃ a ∈ accesses, a.point.key = q ∧ a.value = v ∧ ∃ s ∈ a.sites, s.point.key = k := by
  obtain ⟨hsorted, hfiled⟩ := Group.foldl_add_spec (sitePairs accesses) Group.sorted_empty
  rw [← groupTable] at hsorted hfiled
  have hmet : (∃ a ∈ accesses, a.point.key = q ∧ a.value = v ∧ ∃ s ∈ a.sites, s.point.key = k) ↔
      Group.Filed (groupTable accesses) k (q, v) := by
    rw [hfiled]
    refine ⟨?_, ?_⟩
    · rintro ⟨a, ha, rfl, rfl, s, hs, rfl⟩
      exact .inr ⟨(a, s), (mem_sitePairs accesses a s).2 ⟨ha, hs⟩, rfl, rfl⟩
    · rintro (⟨g, hg, -⟩ | ⟨⟨a, s⟩, hx, hk, hq⟩)
      · cases hg
      · obtain ⟨ha, hs⟩ := (mem_sitePairs accesses a s).1 hx
        obtain ⟨hpoint, hvalue⟩ := Prod.mk.inj hq
        exact ⟨a, ha, hpoint, hvalue, s, hs, hk⟩
  rw [hmet]
  refine ⟨?_, ?_⟩
  · rintro ⟨g, hg, rfl, a, ha, rfl, rfl⟩
    obtain ⟨k, x, hx, rfl⟩ := (mem_groupAccesses accesses g).1 hg
    obtain ⟨hsite, haccesses⟩ := hsorted k x hx
    obtain ⟨q, hq⟩ := (Group.mem_sorted x a).1 ha
    refine ⟨x, hsite.symm ▸ hx, ?_⟩
    rw [haccesses q a hq, Table.mem_keys_iff, hq]
    rfl
  · rintro ⟨x, hx, hq⟩
    obtain ⟨hsite, haccesses⟩ := hsorted k x hx
    obtain ⟨a, ha⟩ := Option.isSome_iff_exists.1 ((Table.mem_keys_iff _ _).1 hq)
    obtain ⟨hpoint, hvalue⟩ := Prod.mk.inj (haccesses (q, v) a ha)
    exact ⟨(x.site, x.sorted), (mem_groupAccesses accesses _).2 ⟨k, x, hx, rfl⟩, hsite, a,
      (Group.mem_sorted x a).2 ⟨(q, v), ha⟩, hpoint, hvalue⟩

/-- No group is empty, its accesses are among those met, each with a site at the
    point of the group, and the site of the group is merged from theirs. -/
theorem groupAccesses_backed {P : Site → Prop} (hP : Site.Closed P) {accesses : List Access}
    (hsites : ∀ a ∈ accesses, ∀ x ∈ a.sites, P x) {g : Site × List Access}
    (hg : g ∈ groupAccesses accesses) :
    P g.1 ∧ g.2 ≠ [] ∧ ∀ a ∈ g.2, a ∈ accesses ∧ ∃ s ∈ a.sites, s.point.key = g.1.point.key := by
  have hpairs : ∀ x ∈ sitePairs accesses, P x.2 ∧
      (x.1 ∈ accesses ∧ ∃ s ∈ x.1.sites, s.point.key = x.2.point.key) := by
    rintro ⟨a, s⟩ hx
    obtain ⟨ha, hs⟩ := (mem_sitePairs accesses a s).1 hx
    exact ⟨hsites a ha s hs, ha, s, hs, rfl⟩
  have hbacked : Group.Backed P (fun a k => a ∈ accesses ∧ ∃ s ∈ a.sites, s.point.key = k)
      (groupTable accesses) :=
    Group.foldl_add_backed hP _ hpairs Group.sorted_empty fun k x hx => nomatch hx
  have hsorted : Group.Sorted (groupTable accesses) :=
    (Group.foldl_add_spec (sitePairs accesses) Group.sorted_empty).1
  obtain ⟨k, x, hx, rfl⟩ := (mem_groupAccesses accesses g).1 hg
  obtain ⟨hsite, hne, hmet⟩ := hbacked k x hx
  have hkey : x.site.point.key = k := (hsorted k x hx).1
  refine ⟨hsite, ?_, ?_⟩
  · obtain ⟨q, hq⟩ := List.exists_mem_of_ne_nil _ hne
    obtain ⟨a, ha⟩ := Option.isSome_iff_exists.1 ((Table.mem_keys_iff _ _).1 hq)
    exact List.ne_nil_of_mem ((Group.mem_sorted x a).2 ⟨q, ha⟩)
  · intro a ha
    obtain ⟨q, hq⟩ := (Group.mem_sorted x a).1 ha
    rw [hkey]
    exact hmet q a hq

/-- The table of diagnostics by site has an entry for every group. -/
theorem Func.bySite_resultOf (f : Func) (severity : Text) (a : Analysis) :
    (f.resultOf severity a).bySite = (groupAccesses a.accesses).map
      fun g => (g.1.point, siteDiagnostic severity g.1 g.2) := by
  rw [Func.resultOf, synthesize, List.zip_map']

/-- Every group has its diagnostic, under the point of its site. -/
theorem Func.mem_bySite_of_group (f : Func) (severity : Text) (a : Analysis)
    {g : Site × List Access} (hg : g ∈ groupAccesses a.accesses) :
    (g.1.point, siteDiagnostic severity g.1 g.2) ∈ (f.resultOf severity a).bySite := by
  rw [Func.bySite_resultOf]
  exact List.mem_map.2 ⟨g, hg, rfl⟩

end Sendability
