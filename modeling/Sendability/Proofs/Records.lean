/-
  What merging does to transfer records.

  A record is `Proper` when its sites stand in program order and no two at one
  point. Merging two proper records gives a proper record that has a site at
  every point where one of them has one, with the values of both
  (`notes_merge`).

  `Notes k o` is what a site or a record says about a point `k`: that there is
  a site (`o = none`), or that a value was handed over there (`o = some w`).
-/

import Sendability.Proofs.Sorting

namespace Sendability

/-! ## Sites -/

namespace Site

/-- The site stands at the point `k`, and hands over the value that `o` names
    if it names one. -/
def Notes (s : Site) (k : Int × Int) (o : Option Name) : Prop :=
  s.point.key = k ∧ ∀ w ∈ o, w ∈ s.values

@[simp] theorem point_merge (s t : Site) : (s.merge t).point = s.point := by
  unfold merge
  split <;> rfl

@[simp] theorem callee_merge (s t : Site) : (s.merge t).callee = s.callee := by
  unfold merge
  split <;> rfl

@[simp] theorem kind_merge (s t : Site) : (s.merge t).kind = s.kind := by
  unfold merge
  split <;> rfl

@[simp] theorem source_merge (s t : Site) : (s.merge t).source = s.source := by
  unfold merge
  split <;> rfl

@[simp] theorem key_merge (s t : Site) : (s.merge t).key = s.key := by
  simp only [key, point_merge, callee_merge, kind_merge, source_merge]

/-- New values are appended in order. -/
theorem values_merge (s t : Site) :
    (s.merge t).values = s.values ++ t.values.filter (· ∉ s.values) := by
  unfold merge
  split
  · rename_i h
    simp [h.1]
  · rfl

theorem types_merge (s t : Site) :
    (s.merge t).types = s.types ++ t.types.filter (· ∉ s.types) := by
  unfold merge
  split
  · rename_i h
    simp [h.2]
  · rfl

theorem mem_append_new (l l' : List Name) (w : Name) :
    w ∈ l ++ l'.filter (· ∉ l) ↔ w ∈ l ∨ w ∈ l' := by
  rw [List.mem_append, List.mem_filter, decide_eq_true_eq]
  constructor
  · rintro (h | ⟨h, -⟩)
    · exact .inl h
    · exact .inr h
  · rintro (h | h)
    · exact .inl h
    · by_cases hs : w ∈ l
      · exact .inl hs
      · exact .inr ⟨h, hs⟩

theorem nodup_append_new {l l' : List Name} (h : l.Nodup) (h' : l'.Nodup) :
    (l ++ l'.filter (· ∉ l)).Nodup := by
  rw [List.nodup_append]
  refine ⟨h, h'.filter _, ?_⟩
  rintro a ha b hb rfl
  simp only [List.mem_filter, decide_eq_true_eq] at hb
  exact hb.2 ha

/-- A merged site hands over the values of both. -/
@[simp] theorem mem_values_merge (s t : Site) (w : Name) :
    w ∈ (s.merge t).values ↔ w ∈ s.values ∨ w ∈ t.values := by
  rw [values_merge, mem_append_new]

@[simp] theorem mem_types_merge (s t : Site) (w : Name) :
    w ∈ (s.merge t).types ↔ w ∈ s.types ∨ w ∈ t.types := by
  rw [types_merge, mem_append_new]

/-- A merged site notes what either notes. -/
theorem notes_merge {s t : Site} (hkey : s.point.key = t.point.key) (k : Int × Int)
    (o : Option Name) : (s.merge t).Notes k o ↔ s.Notes k o ∨ t.Notes k o := by
  unfold Notes
  rw [point_merge, ← hkey]
  cases o with
  | none => simp
  | some w => simp [and_or_left]

end Site

/-! ## Tables of sites -/

/-- Every site of the table stands under its own point. -/
def Keyed (t : Table (Int × Int) Site) : Prop := ∀ k s, t.get? k = some s → s.point.key = k

namespace Record

/-- The sites stand in program order, no two at one point. -/
structure Proper (r : Record) : Prop where
  ordered : r.sites.Pairwise fun a b => a.point.le b.point
  nodup : (r.sites.map fun s => s.point.key).Nodup

/-- What a record says about a point. -/
def Notes (r : Record) (k : Int × Int) (o : Option Name) : Prop := ∃ s ∈ r.sites, s.Notes k o

theorem proper_empty : Proper empty := ⟨List.Pairwise.nil, List.nodup_nil⟩

theorem not_notes_empty (k : Int × Int) (o : Option Name) : ¬ empty.Notes k o := by
  rintro ⟨s, hs, -⟩
  cases hs

theorem proper_singleton (s : Site) : Proper ⟨[s]⟩ := ⟨by simp, by simp⟩

theorem notes_singleton (s : Site) (k : Int × Int) (o : Option Name) :
    (⟨[s]⟩ : Record).Notes k o ↔ s.Notes k o := by
  simp [Notes]

/-- A proper record has one site at a point. -/
theorem Proper.eq_of_key {r : Record} (hr : r.Proper) {a b : Site} (ha : a ∈ r.sites)
    (hb : b ∈ r.sites) (h : a.point.key = b.point.key) : a = b :=
  List.inj_on_of_nodup_map hr.nodup ha hb h

/-- Program order without repetition is strict. -/
theorem Proper.strict {r : Record} (h : r.Proper) :
    r.sites.Pairwise fun x y => x.point.Before y.point := by
  have hne : r.sites.Pairwise fun x y => x.point.key ≠ y.point.key := List.pairwise_map.1 h.nodup
  refine (h.ordered.and hne).imp ?_
  intro x y hxy
  exact (Point.before_iff x.point y.point).2 hxy

theorem proper_of_strict {r : Record}
    (h : r.sites.Pairwise fun x y => x.point.Before y.point) : r.Proper where
  ordered := h.imp fun hxy => ((Point.before_iff _ _).1 hxy).1
  nodup := List.pairwise_map.2 (h.imp fun hxy => ((Point.before_iff _ _).1 hxy).2)

theorem transferred_iff (r : Record) : r.transferred = true ↔ r.sites ≠ [] := by
  simp [transferred]

/-- The sites placed one by one are found under their points. -/
theorem get?_foldl_place {l : List Site} {t : Table (Int × Int) Site}
    (hl : (l.map fun s => s.point.key).Nodup) (k : Int × Int) (s : Site) :
    (l.foldl place t).get? k = some s ↔
      (s ∈ l ∧ s.point.key = k) ∨ ((∀ x ∈ l, x.point.key ≠ k) ∧ t.get? k = some s) := by
  induction l generalizing t with
  | nil => simp
  | cons a l ih =>
    rw [List.map_cons, List.nodup_cons] at hl
    rw [List.foldl_cons, ih hl.2, place, Table.get?_insert]
    have hfresh : ∀ x ∈ l, x.point.key ≠ a.point.key := by
      intro x hx h
      exact hl.1 (List.mem_map.2 ⟨x, hx, h⟩)
    by_cases hk : a.point.key = k
    · subst hk
      have hno : ¬ (s ∈ l ∧ s.point.key = a.point.key) := fun h => hfresh s h.1 h.2
      simp only [hno, false_or, if_true, Option.some.injEq, List.mem_cons]
      constructor
      · rintro ⟨-, rfl⟩
        exact .inl ⟨.inl rfl, rfl⟩
      · rintro (⟨rfl | h, h'⟩ | ⟨h, -⟩)
        · exact ⟨hfresh, rfl⟩
        · exact absurd h' (hfresh s h)
        · exact absurd rfl (h a (.inl rfl))
    · simp only [hk, if_false, List.mem_cons, forall_eq_or_imp, ne_eq, not_false_eq_true, true_and]
      constructor
      · rintro (⟨h, h'⟩ | h)
        · exact .inl ⟨.inr h, h'⟩
        · exact .inr h
      · rintro (⟨rfl | h, h'⟩ | h)
        · exact absurd h' hk
        · exact .inl ⟨h, h'⟩
        · exact .inr h

/-- Absorbing a site merges it into the one at its point. -/
theorem get?_absorb (t : Table (Int × Int) Site) (c : Site) (k : Int × Int) :
    (absorb t c).get? k =
      if c.point.key = k then some ((t.get? k).elim c fun a => a.merge c) else t.get? k := by
  unfold absorb
  by_cases hk : c.point.key = k
  · subst hk
    cases t.get? c.point.key with
    | none => simp
    | some a => simp
  · cases t.get? c.point.key with
    | none => simp [Table.get?_insert, hk]
    | some a => simp [Table.get?_insert, hk]

/-- The sites absorbed one by one are merged into what stood at their points. -/
theorem get?_foldl_absorb {l : List Site} {t : Table (Int × Int) Site}
    (hl : (l.map fun s => s.point.key).Nodup) (k : Int × Int) (s : Site) :
    (l.foldl absorb t).get? k = some s ↔
      (∃ b ∈ l, b.point.key = k ∧
        ((t.get? k = none ∧ s = b) ∨ ∃ a, t.get? k = some a ∧ s = a.merge b)) ∨
      ((∀ x ∈ l, x.point.key ≠ k) ∧ t.get? k = some s) := by
  induction l generalizing t with
  | nil => simp
  | cons c l ih =>
    rw [List.map_cons, List.nodup_cons] at hl
    have hfresh : ∀ x ∈ l, x.point.key ≠ c.point.key := by
      intro x hx h
      exact hl.1 (List.mem_map.2 ⟨x, hx, h⟩)
    rw [List.foldl_cons, ih hl.2, get?_absorb]
    by_cases hk : c.point.key = k
    · subst hk
      have hno : ¬ ∃ b ∈ l, b.point.key = c.point.key := by
        rintro ⟨b, hb, h⟩
        exact hfresh b hb h
      constructor
      · rintro (⟨b, hb, h, -⟩ | ⟨-, h⟩)
        · exact absurd ⟨b, hb, h⟩ hno
        · refine .inl ⟨c, by simp, rfl, ?_⟩
          rw [if_pos rfl] at h
          obtain rfl := Option.some.inj h
          cases hg : t.get? c.point.key with
          | none => exact .inl ⟨rfl, rfl⟩
          | some a => exact .inr ⟨a, rfl, rfl⟩
      · rintro (⟨b, hb, h, h'⟩ | ⟨h, -⟩)
        · rcases List.mem_cons.1 hb with rfl | hb
          · refine .inr ⟨hfresh, ?_⟩
            rw [if_pos rfl]
            rcases h' with ⟨hg, rfl⟩ | ⟨a, hg, rfl⟩
            · rw [hg]
              rfl
            · rw [hg]
              rfl
          · exact absurd ⟨b, hb, h⟩ hno
        · exact absurd rfl (h c (by simp))
    · simp only [hk, if_false, List.mem_cons, exists_eq_or_imp, false_and, false_or,
        forall_eq_or_imp, ne_eq, not_false_eq_true, true_and]

/-- The sites of a merged record: those at points of one record alone, and at
    points of both the two merged. -/
theorem mem_sites_merge {r s : Record} (hr : r.Proper) (hs : s.Proper) (x : Site) :
    x ∈ (r.merge s).sites ↔
      (x ∈ r.sites ∧ ∀ b ∈ s.sites, b.point.key ≠ x.point.key) ∨
      (x ∈ s.sites ∧ ∀ a ∈ r.sites, a.point.key ≠ x.point.key) ∨
      ∃ a ∈ r.sites, ∃ b ∈ s.sites, b.point.key = a.point.key ∧ x = a.merge b := by
  unfold merge
  split
  · rename_i h
    rw [List.isEmpty_iff] at h
    simp [h]
  · split
    · rename_i h
      rw [List.isEmpty_iff] at h
      simp [h]
    · have hmine : ∀ k a, (r.sites.foldl place {}).get? k = some a ↔
          a ∈ r.sites ∧ a.point.key = k := by
        intro k a
        rw [get?_foldl_place hr.nodup]
        have hnone : ({} : Table (Int × Int) Site).get? k = none := rfl
        simp [hnone]
      have hnone : ∀ k, (r.sites.foldl place {}).get? k = none ↔
          ∀ a ∈ r.sites, a.point.key ≠ k := by
        intro k
        rw [Option.eq_none_iff_forall_ne_some]
        constructor
        · intro h a ha hk
          exact h a ((hmine k a).2 ⟨ha, hk⟩)
        · intro h a hg
          obtain ⟨ha, hk⟩ := (hmine k a).1 hg
          exact h a ha hk
      rw [mem_sortBy, Table.mem_values_iff]
      constructor
      · rintro ⟨k, hk⟩
        rcases (get?_foldl_absorb hs.nodup k x).1 hk with
          ⟨b, hb, hbk, ⟨hg, rfl⟩ | ⟨a, hg, rfl⟩⟩ | ⟨hfresh, hg⟩
        · exact .inr (.inl ⟨hb, hbk ▸ (hnone k).1 hg⟩)
        · obtain ⟨ha, hak⟩ := (hmine k a).1 hg
          exact .inr (.inr ⟨a, ha, b, hb, hbk.trans hak.symm, rfl⟩)
        · obtain ⟨ha, hak⟩ := (hmine k x).1 hg
          exact .inl ⟨ha, hak ▸ hfresh⟩
      · rintro (⟨hx, hfresh⟩ | ⟨hx, hfresh⟩ | ⟨a, ha, b, hb, hkey, rfl⟩)
        · exact ⟨x.point.key, (get?_foldl_absorb hs.nodup _ x).2
            (.inr ⟨hfresh, (hmine _ x).2 ⟨hx, rfl⟩⟩)⟩
        · exact ⟨x.point.key, (get?_foldl_absorb hs.nodup _ x).2
            (.inl ⟨x, hx, rfl, .inl ⟨(hnone _).2 hfresh, rfl⟩⟩)⟩
        · exact ⟨a.point.key, (get?_foldl_absorb hs.nodup _ _).2
            (.inl ⟨b, hb, hkey, .inr ⟨a, (hmine _ a).2 ⟨ha, rfl⟩, rfl⟩⟩)⟩

/-- A merged record says what one of the two says. -/
theorem notes_merge {r s : Record} (hr : r.Proper) (hs : s.Proper) (k : Int × Int)
    (o : Option Name) : (r.merge s).Notes k o ↔ r.Notes k o ∨ s.Notes k o := by
  constructor
  · rintro ⟨x, hx, hn⟩
    rcases (mem_sites_merge hr hs x).1 hx with ⟨hx, -⟩ | ⟨hx, -⟩ | ⟨a, ha, b, hb, hkey, rfl⟩
    · exact .inl ⟨x, hx, hn⟩
    · exact .inr ⟨x, hx, hn⟩
    · rcases (Site.notes_merge hkey.symm k o).1 hn with hn | hn
      · exact .inl ⟨a, ha, hn⟩
      · exact .inr ⟨b, hb, hn⟩
  · rintro (⟨a, ha, hn⟩ | ⟨b, hb, hn⟩)
    · by_cases h : ∃ b ∈ s.sites, b.point.key = a.point.key
      · obtain ⟨b, hb, hkey⟩ := h
        exact ⟨a.merge b, (mem_sites_merge hr hs _).2 (.inr (.inr ⟨a, ha, b, hb, hkey, rfl⟩)),
          (Site.notes_merge hkey.symm k o).2 (.inl hn)⟩
      · refine ⟨a, (mem_sites_merge hr hs _).2 (.inl ⟨ha, ?_⟩), hn⟩
        intro b hb hkey
        exact h ⟨b, hb, hkey⟩
    · by_cases h : ∃ a ∈ r.sites, a.point.key = b.point.key
      · obtain ⟨a, ha, hkey⟩ := h
        exact ⟨a.merge b, (mem_sites_merge hr hs _).2 (.inr (.inr ⟨a, ha, b, hb, hkey.symm, rfl⟩)),
          (Site.notes_merge hkey k o).2 (.inr hn)⟩
      · refine ⟨b, (mem_sites_merge hr hs _).2 (.inr (.inl ⟨hb, ?_⟩)), hn⟩
        intro a ha hkey
        exact h ⟨a, ha, hkey⟩

/-- Sites that stand under their points have different points. -/
theorem nodup_keys_of_keyed {t : Table (Int × Int) Site} (ht : Keyed t) :
    (t.values.map fun s => s.point.key).Nodup := by
  rw [Table.map_values_eq_keys ht]
  exact t.nodup

/-- Merged records are proper. -/
theorem proper_merge {r s : Record} (hr : r.Proper) (hs : s.Proper) : (r.merge s).Proper := by
  unfold merge
  split
  · exact hr
  · split
    · exact hs
    · have hkeyed : Keyed (s.sites.foldl absorb (r.sites.foldl place {})) := by
        intro k x hk
        have hmine : ∀ a, (r.sites.foldl place {}).get? k = some a → a.point.key = k := by
          intro a ha
          rcases (get?_foldl_place hr.nodup k a).1 ha with ⟨-, h⟩ | ⟨-, h⟩
          · exact h
          · cases h
        rcases (get?_foldl_absorb hs.nodup k x).1 hk with
          ⟨b, -, hbk, ⟨-, rfl⟩ | ⟨a, hg, rfl⟩⟩ | ⟨-, hg⟩
        · exact hbk
        · rw [Site.point_merge]
          exact hmine a hg
        · exact hmine x hg
      constructor
      · exact pairwise_sortBy (fun a b => Point.le_total a.point b.point)
          (fun a b c => Point.le_trans a.point b.point c.point) _
      · exact ((perm_sortBy _ _).map _).nodup_iff.2 (nodup_keys_of_keyed hkeyed)

/-- A property of sites that merging keeps holds of the sites of a merged
    record. -/
theorem forall_sites_merge {P : Site → Prop}
    (hP : ∀ a b, P a → P b → a.point.key = b.point.key → P (a.merge b)) {r s : Record}
    (hr : r.Proper) (hs : s.Proper) (hrP : ∀ x ∈ r.sites, P x) (hsP : ∀ x ∈ s.sites, P x) :
    ∀ x ∈ (r.merge s).sites, P x := by
  intro x hx
  rcases (mem_sites_merge hr hs x).1 hx with ⟨hx, -⟩ | ⟨hx, -⟩ | ⟨a, ha, b, hb, hkey, rfl⟩
  · exact hrP x hx
  · exact hsP x hx
  · exact hP a b (hrP a ha) (hsP b hb) hkey.symm

/-- A region was transferred if a point is noted. -/
theorem transferred_iff_notes (r : Record) : r.transferred = true ↔ ∃ k, r.Notes k none := by
  rw [transferred_iff]
  constructor
  · intro h
    obtain ⟨s, hs⟩ := List.exists_mem_of_ne_nil r.sites h
    exact ⟨s.point.key, s, hs, rfl, by simp⟩
  · rintro ⟨k, s, hs, -⟩
    exact List.ne_nil_of_mem hs

/-- The points of two records are listed alike if they are the same points. -/
theorem points_eq {r r' : Record} (hr : r.Proper) (hr' : r'.Proper)
    (h : ∀ k, r.Notes k none ↔ r'.Notes k none) :
    (r.sites.map fun x => x.point.key) = r'.sites.map fun x => x.point.key := by
  have hmem : ∀ (q : Record) (k : Int × Int),
      (k ∈ q.sites.map fun x => x.point.key) ↔ q.Notes k none := by
    intro q k
    simp [Notes, Site.Notes]
  have hperm := (List.perm_ext_iff_of_nodup hr.nodup hr'.nodup).2 fun k => by
    rw [hmem, hmem, h]
  -- both lists ascend in the order of points
  let le : Int × Int → Int × Int → Prop := fun a b => a.1 < b.1 ∨ (a.1 = b.1 ∧ a.2 ≤ b.2)
  have hsorted : ∀ q : Record, q.Proper → (q.sites.map fun x => x.point.key).Pairwise le := by
    intro q hq
    rw [List.pairwise_map]
    exact hq.ordered.imp fun hab => (Point.le_iff _ _).1 hab
  refine hperm.eq_of_pairwise ?_ (hsorted r hr) (hsorted r' hr')
  intro a b _ _ hab hba
  have h1 : a.1 = b.1 := by omega
  have h2 : a.2 = b.2 := by omega
  exact Prod.ext h1 h2

end Record

end Sendability
