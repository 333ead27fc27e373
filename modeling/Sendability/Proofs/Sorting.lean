/-
  Sorted lists and the orders they are sorted by.

  `sortBy` gives a permutation of its list that is in order, so a list without
  repetitions has one sorted form: `sortBy_eq_of_mem_iff`. The orders used are
  those of texts, of points and of fingerprints; each is total and transitive,
  and elements that come neither before nor after each other are the same in
  what the order looks at.
-/

import Mathlib.Data.List.Nodup
import Sendability.Region.Join

namespace Sendability

universe u

/-! ## Insertion sort -/

section Insertion

variable {α : Type u} {le : α → α → Bool}

theorem perm_insertBy (le : α → α → Bool) (a : α) (l : List α) :
    (insertBy le a l).Perm (a :: l) := by
  induction l with
  | nil => exact .refl _
  | cons b bs ih =>
    rw [insertBy]
    split
    · exact .refl _
    · exact (ih.cons b).trans (.swap a b bs)

/-- Sorting neither loses nor adds. -/
theorem perm_sortBy (le : α → α → Bool) (l : List α) : (sortBy le l).Perm l := by
  induction l with
  | nil => exact .refl _
  | cons a as ih => exact (perm_insertBy le a _).trans (ih.cons a)

/-- Insertion keeps a list sorted. -/
theorem pairwise_insertBy (htotal : ∀ a b, le a b ∨ le b a)
    (htrans : ∀ a b c, le a b → le b c → le a c) {a : α} {l : List α}
    (h : l.Pairwise fun x y => le x y) : (insertBy le a l).Pairwise fun x y => le x y := by
  induction l with
  | nil => simp [insertBy]
  | cons b bs ih =>
    obtain ⟨hb, hbs⟩ := List.pairwise_cons.1 h
    rw [insertBy]
    split
    · rename_i hab
      refine List.pairwise_cons.2 ⟨?_, h⟩
      intro x hx
      rcases List.mem_cons.1 hx with rfl | hx
      · exact hab
      · exact htrans a b x hab (hb x hx)
    · rename_i hab
      refine List.pairwise_cons.2 ⟨?_, ih hbs⟩
      intro x hx
      rcases (mem_insertBy le a x bs).1 hx with rfl | hx
      · exact (htotal x b).resolve_left hab
      · exact hb x hx

/-- A sorted list is in order. -/
theorem pairwise_sortBy (htotal : ∀ a b, le a b ∨ le b a)
    (htrans : ∀ a b c, le a b → le b c → le a c) (l : List α) :
    (sortBy le l).Pairwise fun x y => le x y := by
  induction l with
  | nil => exact List.Pairwise.nil
  | cons a as ih => exact pairwise_insertBy htotal htrans ih

/-- Lists without repetitions that have the same elements are sorted alike. -/
theorem sortBy_eq_of_mem_iff (htotal : ∀ a b, le a b ∨ le b a)
    (htrans : ∀ a b c, le a b → le b c → le a c) {l l' : List α}
    (hanti : ∀ a ∈ l, ∀ b ∈ l', le a b → le b a → a = b) (hl : l.Nodup) (hl' : l'.Nodup)
    (h : ∀ x, x ∈ l ↔ x ∈ l') : sortBy le l = sortBy le l' := by
  have hperm : (sortBy le l).Perm (sortBy le l') :=
    (perm_sortBy le l).trans (((List.perm_ext_iff_of_nodup hl hl').2 h).trans
      (perm_sortBy le l').symm)
  refine hperm.eq_of_pairwise ?_ (pairwise_sortBy htotal htrans l) (pairwise_sortBy htotal htrans l')
  intro a b ha hb
  exact hanti a ((mem_sortBy le a l).1 ha) b ((mem_sortBy le b l').1 hb)

end Insertion

/-- What a comparison gives is an order that can be sorted by. -/
theorem total_of_cmp {α : Type u} {cmp : α → α → Ordering} [Std.OrientedCmp cmp] (a b : α) :
    (cmp a b).isLE ∨ (cmp b a).isLE := by
  have hswap : cmp b a = (cmp a b).swap := Std.OrientedCmp.eq_swap
  rw [hswap]
  cases cmp a b <;> simp

/-- What is not greater either way is equal. -/
theorem eq_of_cmp {α : Type u} {cmp : α → α → Ordering} [Std.TransCmp cmp] [Std.LawfulEqCmp cmp]
    {a b : α} (hab : (cmp a b).isLE) (hba : (cmp b a).isLE) : a = b := by
  have hswap : cmp b a = (cmp a b).swap := Std.OrientedCmp.eq_swap
  have heq : cmp a b = .eq := by
    rw [hswap] at hba
    revert hab hba
    cases cmp a b <;> simp
  exact Std.LawfulEqCmp.eq_of_compare heq

/-! ## Texts -/

namespace Text

theorem lt_irrefl (s : Text) : ¬ s < s := by
  intro h
  have h' : before s.points s.points = true := h
  rw [before_self] at h'
  cases h'

theorem lt_trans {s t u : Text} (h : s < t) (h' : t < u) : s < u := before_trans h h'

/-- Texts can be compared. -/
theorem lt_or_eq_or_lt (s t : Text) : s < t ∨ s = t ∨ t < s := by
  rcases before_or_eq_or_before s.points t.points with h | h | h
  · exact .inl h
  · refine .inr (.inl ?_)
    cases s
    cases t
    exact congrArg _ h
  · exact .inr (.inr h)

theorem lt_iff_not_gt_and_ne (s t : Text) : s < t ↔ ¬ t < s ∧ s ≠ t := by
  constructor
  · intro h
    refine ⟨fun h' => lt_irrefl s (lt_trans h h'), ?_⟩
    rintro rfl
    exact lt_irrefl s h
  · rintro ⟨h, hne⟩
    rcases lt_or_eq_or_lt s t with h' | h' | h'
    · exact h'
    · exact absurd h' hne
    · exact absurd h' h

instance : Std.TransOrd Text :=
  Std.TransOrd.compareOfLessAndEq_of_lt_trans_of_lt_iff lt_trans lt_iff_not_gt_and_ne

instance : Std.LawfulEqOrd Text where
  eq_of_compare := by
    intro s t h
    have h' : compareOfLessAndEq s t = .eq := h
    unfold compareOfLessAndEq at h'
    split at h'
    · cases h'
    · split at h'
      · assumption
      · cases h'

theorem le_trans {s t u : Text} (h : s ≤ t) (h' : t ≤ u) : s ≤ u := by
  intro hus
  rcases lt_or_eq_or_lt s t with hst | rfl | hts
  · exact h' (lt_trans hus hst)
  · exact h' hus
  · exact h hts

end Text

@[simp] theorem mem_sortText (x : Text) (l : List Text) : x ∈ sortText l ↔ x ∈ l :=
  mem_sortBy _ x l

/-- Lists of different texts are sorted alike exactly when they have the same
    elements. -/
theorem sortText_eq_iff {l l' : List Text} (hl : l.Nodup) (hl' : l'.Nodup) :
    sortText l = sortText l' ↔ ∀ x, x ∈ l ↔ x ∈ l' := by
  constructor
  · intro h x
    rw [← mem_sortText x l, h, mem_sortText]
  · refine sortBy_eq_of_mem_iff ?_ ?_ ?_ hl hl'
    · intro a b
      simpa using Text.le_total a b
    · intro a b c
      simpa using Text.le_trans
    · intro a _ b _
      simpa using Text.le_antisymm

/-! ## Points -/

namespace Point

/-- Points are in the order of their blocks, and within a block of their operations. -/
theorem le_iff (a b : Point) :
    a.le b = true ↔ a.block < b.block ∨ (a.block = b.block ∧ a.op ≤ b.op) := by
  simp [le]

theorem le_total (a b : Point) : a.le b ∨ b.le a := by
  simp only [le_iff]
  omega

theorem le_trans (a b c : Point) (h : a.le b) (h' : b.le c) : a.le c := by
  simp only [le_iff] at *
  omega

/-- One point comes before another in program order. -/
def Before (p q : Point) : Prop := p.block < q.block ∨ (p.block = q.block ∧ p.op < q.op)

/-- A point before another is not after it and not the same. -/
theorem before_iff (p q : Point) : p.Before q ↔ p.le q = true ∧ p.key ≠ q.key := by
  simp only [Before, le_iff, key, ne_eq, Prod.mk.injEq]
  omega

end Point

/-! ## Fingerprints -/

namespace Fingerprint

theorem rank_injective {a b : Crossing} (h : rank a = rank b) : a = b := by
  cases a <;> cases b <;> first | rfl | cases h

/-- The order of fingerprints, put together from the orders of their fields. -/
theorem compare_eq : compare =
    compareLex (compareOn block) (compareLex (compareOn op) (compareLex (compareOn callee)
      (compareLex (compareOn fun a => rank a.kind) (compareLex (compareOn source)
        (compareOn values))))) := rfl

instance : Std.TransCmp compare := by
  rw [compare_eq]
  infer_instance

instance : Std.LawfulEqCmp compare where
  eq_of_compare := by
    intro a b h
    simp only [compare_eq, compareLex_eq_eq, compareOn, Std.LawfulEqOrd.compare_eq_iff_eq] at h
    obtain ⟨h1, h2, h3, h4, h5, h6⟩ := h
    have hkind : a.kind = b.kind := rank_injective h4
    cases a
    cases b
    simp_all

end Fingerprint

/-- Lists of different fingerprints are sorted alike when they have the same
    elements. -/
theorem sortBy_fingerprint_eq {l l' : List Fingerprint} (hl : l.Nodup) (hl' : l'.Nodup)
    (h : ∀ x, x ∈ l ↔ x ∈ l') : sortBy Fingerprint.le l = sortBy Fingerprint.le l' :=
  sortBy_eq_of_mem_iff total_of_cmp (fun _ _ _ => Std.TransCmp.isLE_trans)
    (fun _ _ _ _ => eq_of_cmp) hl hl' h

end Sendability
