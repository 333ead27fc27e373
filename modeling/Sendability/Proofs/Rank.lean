/-
  How far a view can grow.

  Within a finite set of names and a finite set of values handed over at points,
  lawful views have a rank: how many names are tracked, how many of them are
  linked to an earlier one, and how many values are noted about each name. All
  three counts are monotone, and a view that grows has a larger rank
  (`rank_lt`). The second count stands for the number of regions that were
  merged: every region has one earliest name, so a link between two regions
  costs one of their earliest names its place.

  Notes are counted by value, so `rank_lt` needs that every noted point comes
  with a value (`Within.filled`).
-/

import Mathlib.Data.Finset.Card
import Mathlib.Data.Finset.Prod
import Sendability.Proofs.ViewTransfer

namespace Sendability

namespace View

variable {names : Finset Name} {notes : Finset ((Int × Int) × Name)} {index : Name → Nat}
  {A B : View}

-- ============================================================================
-- The largest view
-- ============================================================================

/-- All the names in one region, about which everything is noted. -/
def full (names : Finset Name) (notes : Finset ((Int × Int) × Name)) : View where
  tracked v := v ∈ names
  linked a b := a ∈ names ∧ b ∈ names
  noted v k o := v ∈ names ∧ ∀ w ∈ o, (k, w) ∈ notes

theorem lawful_full (names : Finset Name) (notes : Finset ((Int × Int) × Name)) :
    (full names notes).Lawful where
  refl hv := ⟨hv, hv⟩
  tracked hab := hab.1
  symm hab := ⟨hab.2, hab.1⟩
  trans hab hbc := ⟨hab.1, hbc.2⟩
  noted_tracked hn := hn.1
  noted_congr hab hn := ⟨hab.2, hn.2⟩

theorem define_le {dest : Option Value} {S : Set Name} (h : A ≤ B) (hB : B.Lawful)
    (hdest : ∀ d ∈ dest, d.sendable = false →
      ∀ a ∈ insert d.name S, ∀ b ∈ insert d.name S, B.linked a b) : A.define dest S ≤ B := by
  cases dest with
  | none => exact h
  | some d =>
    simp only [define]
    split
    · exact h
    · rename_i hd
      have hlinked := hdest d rfl (by simpa using hd)
      refine unite_le ?_ hB hlinked
      split
      · exact h
      · have hself : B.linked d.name d.name := hlinked _ (.inl rfl) _ (.inl rfl)
        exact redefine_le h hB (hB.tracked hself)

/-- Building a value of one of the names stays below the largest view. -/
theorem build_full_le {dest : Option Value} (parts : List Value)
    (hdest : ∀ d ∈ dest, d.sendable = false → d.name ∈ names) :
    (full names notes).build dest parts ≤ full names notes := by
  have hB := lawful_full names notes
  have hparts : ∀ a ∈ (full names notes).among parts, a ∈ names := fun a ha => ha.1
  refine define_le (unite_le (le_refl _) hB ?_) hB ?_
  · exact fun a ha b hb => ⟨hparts a ha, hparts b hb⟩
  · intro d hd hsend
    have hall : ∀ a ∈ insert d.name ((full names notes).among parts), a ∈ names := by
      intro a ha
      rcases ha with rfl | ha
      · exact hdest d hd hsend
      · exact hparts a ha
    exact fun a ha b hb => ⟨hall a ha, hall b hb⟩

/-- An operation stays below the largest view if its result and the values that
    it hands over are accounted for. -/
theorem apply_full_le (kind : Crossing) {k : Int × Int} {op : Op}
    (hdest : ∀ d ∈ op.dest?, d.sendable = false → d.name ∈ names)
    (hcall : ∀ c, op = .call c → ∀ v ∈ c.operands, v.sendable = false → (k, v.name) ∈ notes) :
    (full names notes).apply kind k op ≤ full names notes := by
  cases op with
  | init dest args loc => exact build_full_le args hdest
  | load dest base field loc => exact build_full_le [base] hdest
  | copy dest src loc => exact build_full_le [src] hdest
  | store base field value loc => exact build_full_le [base, value] hdest
  | closure dest captures loc => exact build_full_le captures hdest
  | call c =>
    have hbuild : (full names notes).build c.dest c.operands ≤ full names notes :=
      build_full_le c.operands hdest
    simp only [apply]
    split
    · refine annotate_le hbuild (lawful_full names notes) ?_
      rintro v hv k' o ⟨rfl, hw⟩
      refine ⟨hv.1, ?_⟩
      intro w ho
      obtain ⟨-, x, hx, hsend, rfl⟩ := hw w ho
      exact hcall c rfl x hx hsend
    · exact hbuild
  | use value kind loc => exact le_refl _

theorem passOps_full_le (kinds : Op → Crossing) (number : Int) {ops : List Op} {i : Int}
    (hdest : ∀ op ∈ ops, ∀ d ∈ op.dest?, d.sendable = false → d.name ∈ names)
    (hcall : ∀ (j : Nat) c, ops[j]? = some (.call c) → ∀ v ∈ c.operands, v.sendable = false →
      ((number, i + j), v.name) ∈ notes) :
    passOps kinds number i (full names notes) ops ≤ full names notes := by
  induction ops generalizing i with
  | nil => exact le_refl _
  | cons op rest ih =>
    have hfirst : (full names notes).apply (kinds op) (number, i) op ≤ full names notes := by
      refine apply_full_le (kinds op) (hdest op (by simp)) ?_
      rintro c rfl v hv hsend
      have hnote := hcall 0 c rfl v hv hsend
      rwa [Int.natCast_zero, Int.add_zero] at hnote
    have hrest : passOps kinds number (i + 1) (full names notes) rest ≤ full names notes := by
      refine ih (fun op' hop' => hdest op' (List.mem_cons_of_mem _ hop')) ?_
      intro j c hc v hv hsend
      have hnote := hcall (j + 1) c hc v hv hsend
      have heq : i + 1 + (j : Int) = i + ((j + 1 : Nat) : Int) := by omega
      rw [heq]
      exact hnote
    exact (passOps_mono hfirst (lawful_full names notes) rest).trans hrest

-- ============================================================================
-- The rank
-- ============================================================================

/-- A view that has a rank: lawful, below the largest view, and with a value for
    every point that is noted. -/
structure Within (names : Finset Name) (notes : Finset ((Int × Int) × Name)) (A : View) :
    Prop where
  lawful : A.Lawful
  le : A ≤ full names notes
  filled : ∀ v k, A.noted v k none ↔ ∃ w, A.noted v k (some w)

/-- A name is linked to an earlier one. -/
def Later (A : View) (index : Name → Nat) (v : Name) : Prop := ∃ w, A.linked v w ∧ index w < index v

open Classical in
/-- How many names are tracked, how many of them are linked to an earlier one, and
    how many values are noted about each. -/
noncomputable def rank (names : Finset Name) (notes : Finset ((Int × Int) × Name))
    (index : Name → Nat) (A : View) : Nat :=
  (names.filter A.tracked).card + (names.filter (A.Later index)).card +
    ((names ×ˢ notes).filter fun x => A.noted x.1 x.2.1 (some x.2.2)).card

theorem rank_le (names : Finset Name) (notes : Finset ((Int × Int) × Name)) (index : Name → Nat)
    (A : View) :
    rank names notes index A ≤ 2 * names.card + names.card * notes.card := by
  classical
  have h1 := Finset.card_filter_le names A.tracked
  have h2 := Finset.card_filter_le names (A.Later index)
  have h3 := Finset.card_filter_le (names ×ˢ notes) fun x => A.noted x.1 x.2.1 (some x.2.2)
  rw [Finset.card_product] at h3
  unfold rank
  omega

theorem Later.mono (h : A ≤ B) {v : Name} (hv : A.Later index v) : B.Later index v := by
  obtain ⟨w, hw, hlt⟩ := hv
  exact ⟨w, h.linked v w hw, hlt⟩

/-- Every tracked name is linked to one that is linked to no earlier one. -/
theorem Lawful.exists_first (hA : A.Lawful) (index : Name → Nat) {v : Name} (hv : A.tracked v) :
    ∃ w, A.linked v w ∧ ¬ A.Later index w := by
  -- by induction on the place of the name
  induction hn : index v using Nat.strong_induction_on generalizing v with
  | _ n ih =>
    by_cases hlater : A.Later index v
    · obtain ⟨w, hw, hlt⟩ := hlater
      obtain ⟨u, hu, hfirst⟩ := ih (index w) (hn ▸ hlt) (hA.tracked (hA.symm hw)) rfl
      exact ⟨u, hA.trans hw hu, hfirst⟩
    · exact ⟨v, hA.refl hv, hlater⟩

/-- The names that are linked to an earlier one determine the links, once the
    links are known up to a coarser partition. -/
theorem linked_of_later (hA : A.Lawful) (hB : B.Lawful) (h : A ≤ B)
    (hindex : ∀ a b, B.tracked a → B.tracked b → index a = index b → a = b)
    (htracked : ∀ v, B.tracked v → A.tracked v)
    (hlater : ∀ v, B.Later index v → A.Later index v) {a b : Name} (hab : B.linked a b) :
    A.linked a b := by
  obtain ⟨x, hax, hx⟩ := hA.exists_first index (htracked a (hB.tracked hab))
  obtain ⟨y, hby, hy⟩ := hA.exists_first index (htracked b (hB.tracked (hB.symm hab)))
  -- the two earliest names are linked above, so neither can be the earlier one
  have hxa : B.linked x a := hB.symm (h.linked a x hax)
  have hxy : B.linked x y := hB.trans hxa (hB.trans hab (h.linked b y hby))
  have hnlt : ¬ index x < index y := fun hlt => hy (hlater y ⟨x, hB.symm hxy, hlt⟩)
  have hngt : ¬ index y < index x := fun hlt => hx (hlater x ⟨y, hxy, hlt⟩)
  have heq : x = y :=
    hindex x y (hB.tracked hxy) (hB.tracked (hB.symm hxy)) (by omega)
  subst heq
  exact hA.trans hax (hA.symm hby)

/-- A view that grows has a larger rank. -/
theorem rank_lt (hA : A.Within names notes) (hB : B.Within names notes)
    (hindex : ∀ a ∈ names, ∀ b ∈ names, index a = index b → a = b) (h : A ≤ B) (hne : A ≠ B) :
    rank names notes index A < rank names notes index B := by
  classical
  have htracked := Finset.monotone_filter_right names fun v _ => h.tracked v
  have hlater := Finset.monotone_filter_right names
    fun v _ (hv : A.Later index v) => hv.mono h
  have hnoted := Finset.monotone_filter_right (names ×ˢ notes)
    fun x _ (hx : A.noted x.1 x.2.1 (some x.2.2)) => h.noted x.1 x.2.1 (some x.2.2) hx
  by_contra hlt
  refine hne (le_antisymm h ?_)
  -- each count is monotone, so none of them has grown
  have hcards : (names.filter B.tracked).card ≤ (names.filter A.tracked).card ∧
      (names.filter (B.Later index)).card ≤ (names.filter (A.Later index)).card ∧
      ((names ×ˢ notes).filter fun x => B.noted x.1 x.2.1 (some x.2.2)).card ≤
        ((names ×ˢ notes).filter fun x => A.noted x.1 x.2.1 (some x.2.2)).card := by
    have h1 := Finset.card_le_card htracked
    have h2 := Finset.card_le_card hlater
    have h3 := Finset.card_le_card hnoted
    unfold rank at hlt
    omega
  have htrackedBA : ∀ v, B.tracked v → A.tracked v := by
    intro v hv
    have hmem : v ∈ names.filter B.tracked := Finset.mem_filter.2 ⟨hB.le.tracked v hv, hv⟩
    rw [← Finset.eq_of_subset_of_card_le htracked hcards.1] at hmem
    exact (Finset.mem_filter.1 hmem).2
  have hlaterBA : ∀ v, B.Later index v → A.Later index v := by
    intro v hv
    have hname : v ∈ names := by
      obtain ⟨w, hw, -⟩ := hv
      exact hB.le.tracked v (hB.lawful.tracked hw)
    have hmem : v ∈ names.filter (B.Later index) := Finset.mem_filter.2 ⟨hname, hv⟩
    rw [← Finset.eq_of_subset_of_card_le hlater hcards.2.1] at hmem
    exact (Finset.mem_filter.1 hmem).2
  have hnotedBA : ∀ v k w, B.noted v k (some w) → A.noted v k (some w) := by
    intro v k w hn
    obtain ⟨hv, hk⟩ := hB.le.noted v k (some w) hn
    have hmem : (v, k, w) ∈ (names ×ˢ notes).filter
        fun x => B.noted x.1 x.2.1 (some x.2.2) :=
      Finset.mem_filter.2 ⟨Finset.mem_product.2 ⟨hv, hk w rfl⟩, hn⟩
    rw [← Finset.eq_of_subset_of_card_le hnoted hcards.2.2] at hmem
    exact (Finset.mem_filter.1 hmem).2
  refine ⟨htrackedBA, ?_, ?_⟩
  · intro a b hab
    refine linked_of_later hA.lawful hB.lawful h ?_ htrackedBA hlaterBA hab
    exact fun x y hx hy => hindex x (hB.le.tracked x hx) y (hB.le.tracked y hy)
  · intro v k o hn
    cases o with
    | none =>
      obtain ⟨w, hw⟩ := (hB.filled v k).1 hn
      exact (hA.filled v k).2 ⟨w, hnotedBA v k w hw⟩
    | some w => exact hnotedBA v k w hn

end View

end Sendability
