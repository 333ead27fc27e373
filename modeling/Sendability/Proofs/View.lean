/-
  Regions without representatives.

  A `View` is what can be asked of regions: which names are tracked, which are
  linked, and what is noted about the region of a name. Views are ordered by
  inclusion. The changes of regions have counterparts on views, which are
  monotone and keep a view `Lawful`; a lawful view is a partition of its
  tracked names, with notes that are shared within a region.

  `IsJoin F A` says that `A` is the least lawful view above a family `F`. There
  is no operation for it here: joining regions computes one, and at most one
  lawful view has the property (`IsJoin.unique`).
-/

import Mathlib.Data.Set.Insert
import Mathlib.Order.Basic
import Sendability.Proofs.Records

namespace Sendability

/-- What can be asked of regions. `noted v k o` says what is noted about the
    region of `v`: a site at the point `k`, and the value `o` among those
    handed over there, if `o` names one. -/
@[ext] structure View where
  tracked : Name → Prop
  linked : Name → Name → Prop
  noted : Name → Int × Int → Option Name → Prop

namespace View

variable {A B C : View} {S T : Set Name} {v : Name} {k : Int × Int}

-- ============================================================================
-- Order
-- ============================================================================

/-- Everything that is tracked, linked or noted in `A` is so in `B`. -/
structure Below (A B : View) : Prop where
  tracked : ∀ v, A.tracked v → B.tracked v
  linked : ∀ a b, A.linked a b → B.linked a b
  noted : ∀ v k o, A.noted v k o → B.noted v k o

instance : PartialOrder View where
  le := Below
  le_refl _ := ⟨fun _ h => h, fun _ _ h => h, fun _ _ _ h => h⟩
  le_trans _ _ _ h h' :=
    ⟨fun v hv => h'.tracked v (h.tracked v hv), fun a b hab => h'.linked a b (h.linked a b hab),
      fun v k o hn => h'.noted v k o (h.noted v k o hn)⟩
  le_antisymm A B h h' := by
    have htracked : A.tracked = B.tracked := by
      funext v
      exact propext ⟨h.tracked v, h'.tracked v⟩
    have hlinked : A.linked = B.linked := by
      funext a b
      exact propext ⟨h.linked a b, h'.linked a b⟩
    have hnoted : A.noted = B.noted := by
      funext v k o
      exact propext ⟨h.noted v k o, h'.noted v k o⟩
    exact View.ext htracked hlinked hnoted

/-- Views are equal if they cannot be told apart by queries. -/
theorem eq_of_iff (ht : ∀ v, A.tracked v ↔ B.tracked v)
    (hl : ∀ a b, A.linked a b ↔ B.linked a b) (hn : ∀ v k o, A.noted v k o ↔ B.noted v k o) :
    A = B := by
  have hAB : Below A B := ⟨fun v => (ht v).1, fun a b => (hl a b).1, fun v k o => (hn v k o).1⟩
  have hBA : Below B A := ⟨fun v => (ht v).2, fun a b => (hl a b).2, fun v k o => (hn v k o).2⟩
  exact le_antisymm hAB hBA

/-- The view is a partition of its tracked names, and what is noted is shared
    within a region. -/
structure Lawful (A : View) : Prop where
  refl : ∀ {v}, A.tracked v → A.linked v v
  tracked : ∀ {a b}, A.linked a b → A.tracked a
  symm : ∀ {a b}, A.linked a b → A.linked b a
  trans : ∀ {a b c}, A.linked a b → A.linked b c → A.linked a c
  noted_tracked : ∀ {v k o}, A.noted v k o → A.tracked v
  noted_congr : ∀ {a b k o}, A.linked a b → A.noted a k o → A.noted b k o

-- ============================================================================
-- Changes
-- ============================================================================

/-- The view with no name. -/
def empty : View := ⟨fun _ => False, fun _ _ => False, fun _ _ _ => False⟩

/-- The names of `S` in one region, about which nothing is noted. -/
def clique (S : Set Name) : View := ⟨fun v => v ∈ S, fun a b => a ∈ S ∧ b ∈ S, fun _ _ _ => False⟩

/-- Tracks a name in a region of its own unless it is tracked. -/
def track (A : View) (v : Name) : View where
  tracked x := A.tracked x ∨ x = v
  linked a b := A.linked a b ∨ (a = v ∧ b = v)
  noted := A.noted

/-- Moves a name into a region of its own. -/
def redefine (A : View) (v : Name) : View where
  tracked x := A.tracked x ∨ x = v
  linked a b := (a = v ∧ b = v) ∨ (a ≠ v ∧ b ≠ v ∧ A.linked a b)
  noted x k o := x ≠ v ∧ A.noted x k o

/-- A name is linked to one of `S`. -/
def Meets (A : View) (S : Set Name) (a : Name) : Prop := ∃ v ∈ S, A.linked a v

/-- Unites the regions of the names of `S`. -/
def unite (A : View) (S : Set Name) : View where
  tracked := A.tracked
  linked a b := A.linked a b ∨ (A.Meets S a ∧ A.Meets S b)
  noted a k o := A.noted a k o ∨ (A.Meets S a ∧ ∃ v ∈ S, A.noted v k o)

/-- Notes something about the regions of the names of `S`. -/
def annotate (A : View) (S : Set Name) (N : Int × Int → Option Name → Prop) : View where
  tracked := A.tracked
  linked := A.linked
  noted a k o := A.noted a k o ∨ (A.Meets S a ∧ N k o)

-- ============================================================================
-- Monotonicity
-- ============================================================================

theorem Meets.mono {a : Name} (h : A ≤ B) (hS : S ⊆ T) (ha : A.Meets S a) : B.Meets T a := by
  obtain ⟨v, hv, hav⟩ := ha
  exact ⟨v, hS hv, h.linked a v hav⟩

theorem empty_le (A : View) : empty ≤ A :=
  ⟨fun _ h => h.elim, fun _ _ h => h.elim, fun _ _ _ h => h.elim⟩

/-- A clique is the least lawful view in which its names are linked. -/
theorem clique_le (hB : B.Lawful) (hS : ∀ a ∈ S, ∀ b ∈ S, B.linked a b) : clique S ≤ B where
  tracked v hv := hB.tracked (hS v hv v hv)
  linked a b hab := hS a hab.1 b hab.2
  noted _ _ _ h := h.elim

/-- Tracking a name adds nothing to a lawful view above that tracks it. -/
theorem track_le (h : A ≤ B) (hB : B.Lawful) (hv : B.tracked v) : A.track v ≤ B where
  tracked x hx := by
    rcases hx with hx | rfl
    · exact h.tracked x hx
    · exact hv
  linked a b hab := by
    rcases hab with hab | ⟨rfl, rfl⟩
    · exact h.linked a b hab
    · exact hB.refl hv
  noted := h.noted

theorem redefine_mono (h : A ≤ B) (v : Name) : A.redefine v ≤ B.redefine v where
  tracked x hx := hx.imp_left (h.tracked x)
  linked a b hab := hab.imp_right fun hab => ⟨hab.1, hab.2.1, h.linked a b hab.2.2⟩
  noted x k o hn := ⟨hn.1, h.noted x k o hn.2⟩

/-- Redefining a name adds nothing to a view above where the name is tracked. -/
theorem redefine_le (h : A ≤ B) (hB : B.Lawful) (hv : B.tracked v) : A.redefine v ≤ B where
  tracked x hx := by
    rcases hx with hx | rfl
    · exact h.tracked x hx
    · exact hv
  linked a b hab := by
    rcases hab with ⟨rfl, rfl⟩ | ⟨-, -, hab⟩
    · exact hB.refl hv
    · exact h.linked a b hab
  noted x k o hn := h.noted x k o hn.2

theorem unite_mono (h : A ≤ B) (hS : S ⊆ T) : A.unite S ≤ B.unite T where
  tracked := h.tracked
  linked a b hab := by
    rcases hab with hab | ⟨ha, hb⟩
    · exact .inl (h.linked a b hab)
    · exact .inr ⟨ha.mono h hS, hb.mono h hS⟩
  noted a k o hn := by
    rcases hn with hn | ⟨ha, v, hv, hn⟩
    · exact .inl (h.noted a k o hn)
    · exact .inr ⟨ha.mono h hS, v, hS hv, h.noted v k o hn⟩

theorem annotate_mono {N M : Int × Int → Option Name → Prop} (h : A ≤ B) (hS : S ⊆ T)
    (hN : ∀ k o, N k o → M k o) : A.annotate S N ≤ B.annotate T M where
  tracked := h.tracked
  linked := h.linked
  noted a k o hn := by
    rcases hn with hn | ⟨ha, hn⟩
    · exact .inl (h.noted a k o hn)
    · exact .inr ⟨ha.mono h hS, hN k o hn⟩

/-- Uniting names that a lawful view above links adds nothing to it. -/
theorem unite_le (h : A ≤ B) (hB : B.Lawful) (hS : ∀ a ∈ S, ∀ b ∈ S, B.linked a b) :
    A.unite S ≤ B where
  tracked := h.tracked
  linked a b hab := by
    rcases hab with hab | ⟨⟨v, hv, hav⟩, ⟨w, hw, hbw⟩⟩
    · exact h.linked a b hab
    · have hvb : B.linked v b := hB.trans (hS v hv w hw) (hB.symm (h.linked b w hbw))
      exact hB.trans (h.linked a v hav) hvb
  noted a k o hn := by
    rcases hn with hn | ⟨⟨v, hv, hav⟩, w, hw, hn⟩
    · exact h.noted a k o hn
    · have hwa : B.linked w a := hB.trans (hS w hw v hv) (hB.symm (h.linked a v hav))
      exact hB.noted_congr hwa (h.noted w k o hn)

/-- Nothing is added by a note that is there already. -/
theorem annotate_le {N : Int × Int → Option Name → Prop} (h : A ≤ B) (hB : B.Lawful)
    (hN : ∀ v ∈ S, ∀ k o, N k o → B.noted v k o) : A.annotate S N ≤ B where
  tracked := h.tracked
  linked := h.linked
  noted a k o hn := by
    rcases hn with hn | ⟨⟨v, hv, hav⟩, hn⟩
    · exact h.noted a k o hn
    · exact hB.noted_congr (hB.symm (h.linked a v hav)) (hN v hv k o hn)

theorem le_unite (A : View) (S : Set Name) : A ≤ A.unite S :=
  ⟨fun _ h => h, fun _ _ h => .inl h, fun _ _ _ h => .inl h⟩

theorem le_annotate (A : View) (S : Set Name) (N : Int × Int → Option Name → Prop) :
    A ≤ A.annotate S N :=
  ⟨fun _ h => h, fun _ _ h => h, fun _ _ _ h => .inl h⟩

-- ============================================================================
-- Lawfulness
-- ============================================================================

/-- Linked names meet the same sets. -/
theorem Meets.congr (hA : A.Lawful) {a b : Name} (hab : A.linked a b) (h : A.Meets S b) :
    A.Meets S a := by
  obtain ⟨v, hv, hbv⟩ := h
  exact ⟨v, hv, hA.trans hab hbv⟩

theorem Meets.tracked (hA : A.Lawful) {a : Name} (h : A.Meets S a) : A.tracked a := by
  obtain ⟨v, -, hav⟩ := h
  exact hA.tracked hav

theorem lawful_clique (S : Set Name) : (clique S).Lawful where
  refl h := ⟨h, h⟩
  tracked h := h.1
  symm h := ⟨h.2, h.1⟩
  trans h h' := ⟨h.1, h'.2⟩
  noted_tracked h := h.elim
  noted_congr _ h := h.elim

/-- A name in a region of its own leaves a view lawful. -/
theorem Lawful.redefine (hA : A.Lawful) (v : Name) : (A.redefine v).Lawful where
  refl := by
    intro x hx
    by_cases hxv : x = v
    · exact .inl ⟨hxv, hxv⟩
    · exact .inr ⟨hxv, hxv, hA.refl (hx.resolve_right hxv)⟩
  tracked := by
    rintro a b (⟨ha, -⟩ | ⟨-, -, hab⟩)
    · exact .inr ha
    · exact .inl (hA.tracked hab)
  symm := by
    rintro a b (⟨ha, hb⟩ | ⟨ha, hb, hab⟩)
    · exact .inl ⟨hb, ha⟩
    · exact .inr ⟨hb, ha, hA.symm hab⟩
  trans := by
    rintro a b c (⟨ha, hb⟩ | ⟨ha, hb, hab⟩) (⟨hb', hc⟩ | ⟨hb', hc, hbc⟩)
    · exact .inl ⟨ha, hc⟩
    · exact absurd hb hb'
    · exact absurd hb' hb
    · exact .inr ⟨ha, hc, hA.trans hab hbc⟩
  noted_tracked := fun h => .inl (hA.noted_tracked h.2)
  noted_congr := by
    rintro a b k o (⟨ha, -⟩ | ⟨-, hb, hab⟩) ⟨ha', hn⟩
    · exact absurd ha ha'
    · exact ⟨hb, hA.noted_congr hab hn⟩

/-- Uniting links all that meets the set, so links stay transitive. -/
theorem Lawful.unite (hA : A.Lawful) (S : Set Name) : (A.unite S).Lawful where
  refl := fun h => .inl (hA.refl h)
  tracked := by
    rintro a b (hab | ⟨ha, -⟩)
    · exact hA.tracked hab
    · exact ha.tracked hA
  symm := by
    rintro a b (hab | ⟨ha, hb⟩)
    · exact .inl (hA.symm hab)
    · exact .inr ⟨hb, ha⟩
  trans := by
    rintro a b c (hab | ⟨ha, hb⟩) (hbc | ⟨hb', hc⟩)
    · exact .inl (hA.trans hab hbc)
    · exact .inr ⟨hb'.congr hA hab, hc⟩
    · exact .inr ⟨ha, hb.congr hA (hA.symm hbc)⟩
    · exact .inr ⟨ha, hc⟩
  noted_tracked := by
    rintro v k o (hn | ⟨hv, -⟩)
    · exact hA.noted_tracked hn
    · exact hv.tracked hA
  noted_congr := by
    rintro a b k o (hab | ⟨⟨v, hv, hav⟩, hb⟩) (hn | ⟨ha, hn⟩)
    · exact .inl (hA.noted_congr hab hn)
    · exact .inr ⟨ha.congr hA (hA.symm hab), hn⟩
    · exact .inr ⟨hb, v, hv, hA.noted_congr hav hn⟩
    · exact .inr ⟨hb, hn⟩

theorem Lawful.annotate (hA : A.Lawful) (S : Set Name) (N : Int × Int → Option Name → Prop) :
    (A.annotate S N).Lawful where
  refl := hA.refl
  tracked := hA.tracked
  symm := hA.symm
  trans := hA.trans
  noted_tracked := by
    rintro v k o (hn | ⟨hv, -⟩)
    · exact hA.noted_tracked hn
    · exact hv.tracked hA
  noted_congr := by
    rintro a b k o hab (hn | ⟨ha, hn⟩)
    · exact .inl (hA.noted_congr hab hn)
    · exact .inr ⟨ha.congr hA (hA.symm hab), hn⟩

/-- In a lawful view there is nothing to do for names that are linked already. -/
theorem unite_eq_self (hA : A.Lawful) (hS : ∀ a ∈ S, ∀ b ∈ S, A.linked a b) : A.unite S = A :=
  le_antisymm (unite_le (le_refl A) hA hS) (le_unite A S)

-- ============================================================================
-- Joins
-- ============================================================================

/-- `A` is the least lawful view above a family of views. -/
structure IsJoin (F : Set View) (A : View) : Prop where
  upper : ∀ B ∈ F, B ≤ A
  least : ∀ U : View, U.Lawful → (∀ B ∈ F, B ≤ U) → A ≤ U

/-- Views have one join at most. -/
theorem IsJoin.unique {F : Set View} (h : IsJoin F A) (h' : IsJoin F B) (hA : A.Lawful)
    (hB : B.Lawful) : A = B :=
  le_antisymm (h.least B hB h'.upper) (h'.least A hA h.upper)

theorem isJoin_singleton (A : View) : IsJoin {A} A where
  upper B hB := by
    rw [Set.mem_singleton_iff] at hB
    rw [hB]
  least U _ h := h A rfl

/-- A join can be taken in two steps. -/
theorem IsJoin.insert {F : Set View} (h : IsJoin {A, B} C) (hC : C.Lawful) {D : View}
    (h' : IsJoin (insert C F) D) : IsJoin (insert A (insert B F)) D where
  upper X hX := by
    rcases hX with rfl | rfl | hX
    · exact (h.upper X (.inl rfl)).trans (h'.upper C (.inl rfl))
    · exact (h.upper X (.inr rfl)).trans (h'.upper C (.inl rfl))
    · exact h'.upper X (.inr hX)
  least U hU hle := by
    apply h'.least U hU
    rintro X (rfl | hX)
    · apply h.least U hU
      rintro Y (rfl | rfl)
      · exact hle Y (.inl rfl)
      · exact hle Y (.inr (.inl rfl))
    · exact hle X (.inr (.inr hX))

end View

end Sendability
