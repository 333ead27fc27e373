/-
  Representatives in the forest of a partition.

  `Path` is the way up from a name to its representative, and `Rep p v r` says
  that `r` represents `v` in `p`. A partition is `WellFormed` when every
  tracked name has a representative and the weights are kept for the
  representatives alone.

  Each operation has one lemma that says that it succeeds on tracked names,
  keeps the partition well formed, and where every representative goes: `find`,
  `findAll` and `membersOf` shorten paths and change no representative
  (`Alike`), and `add` makes a name its own representative.
-/

import Mathlib.Data.List.Nodup
import Mathlib.Data.List.Perm.Subperm
import Sendability.Region.Partition

namespace Sendability
namespace Partition

/-- The way up from a name: the names passed, and the representative. -/
inductive Path (parents : Table Name Name) : Name → List Name → Name → Prop
  | root {r : Name} (h : parents.get? r = some r) : Path parents r [] r
  | step {v u r : Name} {l : List Name} (h : parents.get? v = some u) (hne : u ≠ v)
      (hp : Path parents u l r) : Path parents v (v :: l) r

/-- `r` represents the region of `v`. -/
def Rep (p : Partition) (v r : Name) : Prop := ∃ l, Path p.parents v l r

/-! ## Paths -/

namespace Path

variable {parents : Table Name Name} {v u r r' : Name} {l l' : List Name}

theorem isRoot (h : Path parents v l r) : parents.get? r = some r := by
  induction h with
  | root h => exact h
  | step _ _ _ ih => exact ih

/-- There is one way up from a name. -/
theorem unique (h : Path parents v l r) (h' : Path parents v l' r') : l = l' ∧ r = r' := by
  induction h generalizing l' r' with
  | root hr =>
    cases h' with
    | root => exact ⟨rfl, rfl⟩
    | step h hne _ => exact absurd (Option.some.inj (h.symm.trans hr)) hne
  | step hv hne _ ih =>
    cases h' with
    | root h => exact absurd (Option.some.inj (hv.symm.trans h)) hne
    | step h _ hp =>
      obtain rfl := Option.some.inj (hv.symm.trans h)
      obtain ⟨rfl, rfl⟩ := ih hp
      exact ⟨rfl, rfl⟩

/-- Every name that is passed has the rest of the way for its own. -/
theorem of_mem (h : Path parents v l r) (hu : u ∈ l) :
    ∃ l', Path parents u (u :: l') r ∧ l'.length < l.length := by
  induction h with
  | root => cases hu
  | @step v w r l hv hne hp ih =>
    rcases List.mem_cons.1 hu with rfl | hu
    · exact ⟨l, .step hv hne hp, by simp⟩
    · obtain ⟨l', hl', hlen⟩ := ih hu
      exact ⟨l', hl', by simp; omega⟩

/-- No name is passed twice: the second time the way would be shorter. -/
theorem nodup (h : Path parents v l r) : l.Nodup := by
  induction h with
  | root => exact List.nodup_nil
  | @step v w r l hv hne hp ih =>
    refine List.nodup_cons.2 ⟨?_, ih⟩
    intro hmem
    obtain ⟨l', hl', hlen⟩ := hp.of_mem hmem
    obtain ⟨heq, -⟩ := hl'.unique (.step hv hne hp)
    rw [(List.cons.inj heq).2] at hlen
    omega

theorem mem_keys (h : Path parents v l r) : v ∈ parents.keys := by
  rw [Table.mem_keys_iff]
  cases h with
  | root h => rw [h]; rfl
  | step h _ _ => rw [h]; rfl

theorem length_le (h : Path parents v l r) : l.length ≤ parents.keys.length := by
  apply (List.subperm_of_subset h.nodup _).length_le
  intro u hu
  obtain ⟨l', hl', -⟩ := h.of_mem hu
  exact hl'.mem_keys

/-- A climb with enough steps goes all the way up. -/
theorem climb_eq (h : Path parents v l r) {fuel : Nat} (hf : l.length < fuel) :
    climb parents fuel v = .ok (l, r) := by
  induction h generalizing fuel with
  | root h =>
    cases fuel with
    | zero => simp at hf
    | succ fuel => simp [climb, h]
  | step h hne _ ih =>
    cases fuel with
    | zero => simp at hf
    | succ fuel =>
      rw [List.length_cons] at hf
      simp [climb, h, hne, ih (Nat.lt_of_succ_lt_succ hf)]

end Path

/-! ## Representatives -/

variable {p q t : Partition} {v u w r r' : Name}

theorem Rep.unique (h : p.Rep v r) (h' : p.Rep v r') : r = r' := by
  obtain ⟨l, hl⟩ := h
  obtain ⟨l', hl'⟩ := h'
  exact (hl.unique hl').2

theorem Rep.mem_names (h : p.Rep v r) : v ∈ p.names := by
  obtain ⟨l, hl⟩ := h
  exact hl.mem_keys

/-- A representative represents itself. -/
theorem Rep.self (h : p.Rep v r) : p.Rep r r := by
  obtain ⟨l, hl⟩ := h
  exact ⟨[], .root hl.isRoot⟩

theorem rep_self_iff : p.Rep r r ↔ p.parents.get? r = some r := by
  constructor
  · rintro ⟨l, hl⟩
    exact hl.isRoot
  · intro h
    exact ⟨[], .root h⟩

theorem Rep.step (h : p.parents.get? v = some u) (hr : p.Rep u r) : p.Rep v r := by
  by_cases hne : u = v
  · exact hne ▸ hr
  · obtain ⟨l, hl⟩ := hr
    exact ⟨v :: l, .step h hne hl⟩

/-- A parent has the same representative. -/
theorem Rep.of_parent (h : p.parents.get? v = some u) (hr : p.Rep v r) : p.Rep u r := by
  obtain ⟨l, hl⟩ := hr
  cases hl with
  | root h' =>
    obtain rfl := Option.some.inj (h.symm.trans h')
    exact ⟨[], .root h⟩
  | step h' _ hp =>
    obtain rfl := Option.some.inj (h.symm.trans h')
    exact ⟨_, hp⟩

/-- Every tracked name has a representative, and the weights are those of the
    representatives. -/
structure WellFormed (p : Partition) : Prop where
  rep : ∀ v ∈ p.names, ∃ r, p.Rep v r
  weights : ∀ r, r ∈ p.weights.keys ↔ p.Rep r r

theorem wellFormed_empty : WellFormed empty where
  rep := by
    intro v hv
    cases hv
  weights := by
    intro r
    rw [rep_self_iff]
    constructor
    · intro h
      cases h
    · intro h
      cases h

theorem climb_eq (hp : p.WellFormed) (hv : v ∈ p.names) :
    ∃ l r, climb p.parents (p.size + 1) v = .ok (l, r) ∧ Path p.parents v l r := by
  obtain ⟨r, l, hl⟩ := hp.rep v hv
  refine ⟨l, r, hl.climb_eq ?_, hl⟩
  have hlen := hl.length_le
  have hsize : p.size = p.parents.keys.length := by simp [size, Table.size, Table.keys]
  omega

/-! ## Shorter paths -/

/-- `q` is `p` but for the lengths of its paths. -/
structure Alike (p q : Partition) : Prop where
  names : q.names = p.names
  weights : q.weights = p.weights
  rep : ∀ x y, q.Rep x y ↔ p.Rep x y

namespace Alike

theorem refl (p : Partition) : Alike p p := ⟨rfl, rfl, fun _ _ => Iff.rfl⟩

theorem symm (h : Alike p q) : Alike q p :=
  ⟨h.names.symm, h.weights.symm, fun x y => (h.rep x y).symm⟩

theorem trans (h : Alike p q) (h' : Alike q t) : Alike p t :=
  ⟨h'.names.trans h.names, h'.weights.trans h.weights,
    fun x y => (h'.rep x y).trans (h.rep x y)⟩

theorem wellFormed (h : Alike p q) (hp : p.WellFormed) : q.WellFormed where
  rep := by
    intro v hv
    rw [h.names] at hv
    obtain ⟨r, hr⟩ := hp.rep v hv
    exact ⟨r, (h.rep v r).2 hr⟩
  weights := by
    intro r
    rw [h.weights, h.rep r r]
    exact hp.weights r

theorem contains (h : Alike p q) (v : Name) : q.contains v = p.contains v := by
  have hkeys : q.parents.keys = p.parents.keys := h.names
  rw [Bool.eq_iff_iff, Partition.contains, Partition.contains, Table.contains_iff,
    Table.contains_iff, hkeys]

end Alike

/-- Hanging a name directly below its representative changes nothing else. -/
theorem alike_insert (hu : p.Rep u r) (hne : u ≠ r) :
    Alike p { p with parents := p.parents.insert u r } where
  names := Table.keys_insert_of_mem hu.mem_names r
  weights := rfl
  rep := by
    intro x y
    have hroot : p.parents.get? r = some r := rep_self_iff.1 hu.self
    constructor
    · rintro ⟨l, hl⟩
      induction hl with
      | @root y h =>
        rw [Table.get?_insert] at h
        split at h
        · exact absurd (by simp_all) hne
        · exact ⟨[], .root h⟩
      | @step x w y l h _ _ ih =>
        rw [Table.get?_insert] at h
        split at h
        · rename_i hx
          subst hx
          obtain rfl := Option.some.inj h
          rwa [ih.unique hu.self]
        · exact ih.step h
    · rintro ⟨l, hl⟩
      induction hl with
      | @root y h =>
        refine ⟨[], .root ?_⟩
        rw [Table.get?_insert, if_neg]
        · exact h
        · rintro rfl
          exact hne (Rep.unique ⟨[], .root h⟩ hu)
      | @step x w y l h hxw hp ih =>
        by_cases hx : u = x
        · subst hx
          obtain rfl := Rep.unique ⟨_, .step h hxw hp⟩ hu
          refine Rep.step ?_ ih.self
          simp
        · refine Rep.step ?_ ih
          simpa [Table.get?_insert, hx] using h

/-- Shortening a path changes no representative. -/
theorem alike_shorten {l : List Name} (h : ∀ u ∈ l, p.Rep u r ∧ u ≠ r) :
    Alike p (p.shorten l r) := by
  induction l generalizing p with
  | nil => exact Alike.refl p
  | cons u l ih =>
    obtain ⟨hu, hne⟩ := h u (by simp)
    have h1 := alike_insert hu hne
    refine h1.trans (ih ?_)
    intro w hw
    obtain ⟨hwr, hwne⟩ := h w (List.mem_cons_of_mem _ hw)
    exact ⟨(h1.rep w r).2 hwr, hwne⟩

/-- A look-up hangs the names that it passes directly below the representative. -/
theorem find_eq (hp : p.WellFormed) (hv : v ∈ p.names) :
    ∃ l r, p.find v = .ok (r, p.shorten l r) ∧ p.Rep v r ∧ ∀ u ∈ l, p.Rep u r ∧ u ≠ r := by
  obtain ⟨l, r, hc, hl⟩ := climb_eq hp hv
  refine ⟨l, r, by simp [find, hc], ⟨l, hl⟩, ?_⟩
  intro u hu
  obtain ⟨l', hl', -⟩ := hl.of_mem hu
  refine ⟨⟨_, hl'⟩, ?_⟩
  rintro rfl
  cases hl' with
  | step h hne _ => exact hne (Option.some.inj (h.symm.trans hl.isRoot))

theorem find_spec (hp : p.WellFormed) (hv : v ∈ p.names) :
    ∃ r q, p.find v = .ok (r, q) ∧ p.Rep v r ∧ Alike p q := by
  obtain ⟨l, r, hf, hr, hl⟩ := find_eq hp hv
  exact ⟨r, p.shorten l r, hf, hr, alike_shorten hl⟩

theorem find_untracked (hv : v ∉ p.names) : p.find v = .error ⟨v⟩ := by
  have hnone : p.parents.get? v = none := by
    rw [names, Table.mem_keys_iff] at hv
    simpa using hv
  simp [find, climb, hnone]

/-- A look-up that succeeds has found the representative. -/
theorem find_ok (hp : p.WellFormed) (h : p.find v = .ok (r, q)) : p.Rep v r ∧ Alike p q := by
  have hv : v ∈ p.names := by
    by_contra hv
    rw [find_untracked hv] at h
    cases h
  obtain ⟨r', q', heq, hr, hq⟩ := find_spec hp hv
  rw [heq] at h
  obtain ⟨rfl, rfl⟩ := Prod.mk.inj (Except.ok.inj h)
  exact ⟨hr, hq⟩

theorem findAll_spec {vs : List Name} (hp : p.WellFormed) (hvs : ∀ v ∈ vs, v ∈ p.names) :
    ∃ rs q, p.findAll vs = .ok (rs, q) ∧ Alike p q ∧ ∀ z, z ∈ rs ↔ ∃ v ∈ vs, p.Rep v z := by
  induction vs generalizing p with
  | nil => exact ⟨[], p, rfl, Alike.refl p, by simp⟩
  | cons v vs ih =>
    obtain ⟨r, q, hf, hr, hq⟩ := find_spec hp (hvs v (by simp))
    have hvs' : ∀ u ∈ vs, u ∈ q.names := by
      intro u hu
      rw [hq.names]
      exact hvs u (List.mem_cons_of_mem _ hu)
    obtain ⟨rs, t, hfa, ht, hrs⟩ := ih (hq.wellFormed hp) hvs'
    refine ⟨r :: rs, t, by simp [findAll, hf, hfa], hq.trans ht, ?_⟩
    intro z
    have hz : p.Rep v z ↔ z = r := ⟨fun h => h.unique hr, fun h => h ▸ hr⟩
    simp [hrs, hq.rep, hz]

/-- Looking up some names fails at the first that is not tracked. -/
theorem findAll_untracked {vs : List Name} {u : Name} (hp : p.WellFormed)
    (hu : vs.find? (fun v => !p.contains v) = some u) : p.findAll vs = .error ⟨u⟩ := by
  induction vs generalizing p with
  | nil => cases hu
  | cons v vs ih =>
    rw [List.find?_cons] at hu
    cases hc : p.contains v with
    | false =>
      rw [hc] at hu
      obtain rfl := Option.some.inj hu
      have hv : v ∉ p.names := by
        rw [names, ← Table.contains_iff]
        exact fun h => Bool.false_ne_true (hc.symm.trans h)
      simp [findAll, find_untracked hv]
    | true =>
      rw [hc] at hu
      obtain ⟨r, q, hf, -, hq⟩ := find_spec hp ((Table.contains_iff _ _).1 hc)
      have hrest : q.findAll vs = .error ⟨u⟩ := by
        refine ih (hq.wellFormed hp) ?_
        simp only [hq.contains]
        exact hu
      simp [findAll, hf, hrest]

/-- Names are all tracked, or there is a first that is not. -/
theorem tracked_or_untracked (p : Partition) (vs : List Name) :
    (∀ v ∈ vs, v ∈ p.names) ∨ ∃ u, vs.find? (fun v => !p.contains v) = some u := by
  cases hfind : vs.find? (fun v => !p.contains v) with
  | some u => exact .inr ⟨u, rfl⟩
  | none =>
    refine .inl ?_
    intro v hv
    have hc : p.contains v = true := by simpa using List.find?_eq_none.1 hfind v hv
    exact (Table.contains_iff p.parents v).1 hc

theorem mem_names_of_findAll {vs rs : List Name} (hp : p.WellFormed)
    (h : p.findAll vs = .ok (rs, q)) : ∀ v ∈ vs, v ∈ p.names := by
  rcases tracked_or_untracked p vs with hvs | ⟨u, hu⟩
  · exact hvs
  · rw [findAll_untracked hp hu] at h
    cases h

theorem membersOf_spec {vs : List Name} (hp : p.WellFormed) (hvs : ∀ v ∈ vs, v ∈ p.names) :
    ∃ ms q, p.membersOf r vs = .ok (ms, q) ∧ Alike p q ∧ ms.Sublist vs ∧
      ∀ x, x ∈ ms ↔ x ∈ vs ∧ p.Rep x r := by
  induction vs generalizing p with
  | nil => exact ⟨[], p, rfl, Alike.refl p, List.Sublist.refl _, by simp⟩
  | cons v vs ih =>
    obtain ⟨z, q, hf, hz, hq⟩ := find_spec hp (hvs v (by simp))
    have hvs' : ∀ u ∈ vs, u ∈ q.names := by
      intro u hu
      rw [hq.names]
      exact hvs u (List.mem_cons_of_mem _ hu)
    obtain ⟨ms, t, hm, ht, hsub, hms⟩ := ih (hq.wellFormed hp) hvs'
    refine ⟨if z = r then v :: ms else ms, t, by simp [membersOf, hf, hm], hq.trans ht, ?_, ?_⟩
    · split
      · exact hsub.cons_cons v
      · exact hsub.cons v
    intro x
    have hv : p.Rep v r ↔ z = r := ⟨fun h => hz.unique h, fun h => h ▸ hz⟩
    by_cases hzr : z = r
    · have hvr : p.Rep v r := hv.2 hzr
      simp only [hzr, if_true, List.mem_cons, hms, hq.rep]
      constructor
      · rintro (rfl | ⟨hx, hxr⟩)
        · exact ⟨.inl rfl, hvr⟩
        · exact ⟨.inr hx, hxr⟩
      · rintro ⟨rfl | hx, hxr⟩
        · exact .inl rfl
        · exact .inr ⟨hx, hxr⟩
    · simp only [hzr, if_false, List.mem_cons, hms, hq.rep]
      constructor
      · rintro ⟨hx, hxr⟩
        exact ⟨.inr hx, hxr⟩
      · rintro ⟨rfl | hx, hxr⟩
        · exact absurd (hv.1 hxr) hzr
        · exact ⟨hx, hxr⟩

/-! ## Tracking -/

theorem mem_names_add (p : Partition) (v x : Name) :
    x ∈ (p.add v).names ↔ x ∈ p.names ∨ x = v := by
  unfold add
  split
  · rename_i h
    have hv : v ∈ p.names := (Table.contains_iff p.parents v).1 h
    constructor
    · exact .inl
    · rintro (hx | rfl)
      · exact hx
      · exact hv
  · rename_i h
    have hv : v ∉ p.parents.keys := fun hv => h ((Table.contains_iff p.parents v).2 hv)
    simp [names, Table.keys_insert, hv]

/-- A name that was not tracked is its own way up, and no other way changes. -/
theorem path_of_add (hp : p.WellFormed) (hv : v ∉ p.names) {x y : Name} {l : List Name}
    (h : Path (p.parents.insert v v) x l y) :
    Path p.parents x l y ∨ (x = v ∧ l = [] ∧ y = v) := by
  induction h with
  | @root y h =>
    rw [Table.get?_insert] at h
    split at h
    · rename_i hy
      exact .inr ⟨hy.symm, rfl, hy.symm⟩
    · exact .inl (.root h)
  | @step x w y l h hxw _ ih =>
    rw [Table.get?_insert] at h
    split at h
    · rename_i hx
      exact absurd (by simp_all) hxw
    · refine .inl (.step h hxw ?_)
      rcases ih with ih | ⟨rfl, -⟩
      · exact ih
      · -- a parent is tracked, since its child has a representative
        have hx : x ∈ p.names := by
          rw [names, Table.mem_keys_iff, h]
          rfl
        obtain ⟨r, hr⟩ := hp.rep x hx
        exact absurd (hr.of_parent h).mem_names hv

/-- A name that was not tracked represents itself; the others keep their
    representatives. -/
theorem rep_add (hp : p.WellFormed) (hv : v ∉ p.names) (x y : Name) :
    (p.add v).Rep x y ↔ p.Rep x y ∨ (x = v ∧ y = v) := by
  have hc : ¬ p.contains v = true := fun h => hv ((Table.contains_iff p.parents v).1 h)
  have hadd : p.add v = ⟨p.parents.insert v v, p.weights.insert v 1⟩ := by
    rw [add, if_neg hc]
  rw [hadd]
  constructor
  · rintro ⟨l, hl⟩
    rcases path_of_add hp hv hl with hl | ⟨hx, -, hy⟩
    · exact .inl ⟨l, hl⟩
    · exact .inr ⟨hx, hy⟩
  · rintro (⟨l, hl⟩ | ⟨rfl, rfl⟩)
    · induction hl with
      | @root y h =>
        refine ⟨[], .root ?_⟩
        have hy : v ≠ y := by
          rintro rfl
          exact hv (Rep.mem_names ⟨[], .root h⟩)
        simpa [Table.get?_insert, hy] using h
      | @step x w y l h hxw hl ih =>
        have hx : v ≠ x := by
          rintro rfl
          exact hv (Rep.mem_names ⟨_, .step h hxw hl⟩)
        refine Rep.step ?_ ih
        simpa [Table.get?_insert, hx] using h
    · exact ⟨[], .root (by simp)⟩

theorem wellFormed_add (hp : p.WellFormed) (v : Name) : (p.add v).WellFormed := by
  by_cases hv : v ∈ p.names
  · have hc : p.contains v = true := (Table.contains_iff p.parents v).2 hv
    rw [add, if_pos hc]
    exact hp
  · have hc : ¬ p.contains v = true := fun h => hv ((Table.contains_iff p.parents v).1 h)
    constructor
    · intro x hx
      rcases (mem_names_add p v x).1 hx with hx | rfl
      · obtain ⟨r, hr⟩ := hp.rep x hx
        exact ⟨r, (rep_add hp hv x r).2 (.inl hr)⟩
      · exact ⟨x, (rep_add hp hv x x).2 (.inr ⟨rfl, rfl⟩)⟩
    · intro r
      rw [rep_add hp hv, ← hp.weights r, add, if_neg hc, Table.mem_keys_iff, Table.get?_insert,
        Table.mem_keys_iff]
      by_cases hr : v = r
      · simp [hr]
      · simp [hr, Ne.symm hr]

end Partition
end Sendability
