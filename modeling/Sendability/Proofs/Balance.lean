/-
  Union by size keeps the trees of a partition shallow.

  A partition is `Balanced` when two to the length of a way up is at most the
  weight at its top. Look-ups only make ways up shorter (`Flatter`). A union puts
  one more step on the ways that end at a representative it hangs, and that one
  has at most half of the new weight. A name that leaves its region leaves the
  others at most one step below the top. So every partition that is `Reached`
  from the empty one is balanced: `two_pow_depth_le`.
-/

import Sendability.Proofs.Regrouping

namespace Sendability
namespace Partition

variable {p q t : Partition} {v u w r : Name}

/-- Two to the length of a way up is at most the weight at its top. -/
def Balanced (p : Partition) : Prop :=
  ∀ ⦃v l r n⦄, Path p.parents v l r → p.weights.get? r = some n → 2 ^ l.length ≤ n

/-! ## Look-ups -/

/-- Every way up in `q` was there in `p`, and no shorter. -/
def Flatter (p q : Partition) : Prop :=
  ∀ ⦃v l r⦄, Path q.parents v l r → ∃ l', Path p.parents v l' r ∧ l.length ≤ l'.length

theorem Flatter.refl (p : Partition) : Flatter p p := fun _ l _ h => ⟨l, h, Nat.le_refl _⟩

/-- Ways that get shorter twice get shorter. -/
theorem Flatter.trans (h : Flatter p q) (h' : Flatter q t) : Flatter p t := by
  intro v l r hl
  obtain ⟨l', hl', hlen⟩ := h' hl
  obtain ⟨l'', hl'', hlen'⟩ := h hl'
  exact ⟨l'', hl'', Nat.le_trans hlen hlen'⟩

/-- Hanging a name directly below its representative makes no way up longer. -/
theorem flatter_insert (hu : p.Rep u r) (hne : u ≠ r) :
    Flatter p { p with parents := p.parents.insert u r } := by
  intro x l y hl
  induction hl with
  | @root y h =>
    rw [Table.get?_insert] at h
    split at h
    · exact absurd (by simp_all) hne
    · exact ⟨[], .root h, Nat.le_refl _⟩
  | @step x w y l h hxw _ ih =>
    obtain ⟨l', hl', hlen⟩ := ih
    rw [Table.get?_insert] at h
    split at h
    · -- from `u` it is one step, and it was at least one before
      rename_i hx
      subst hx
      obtain rfl := Option.some.inj h
      obtain ⟨rfl, rfl⟩ := hl'.unique (.root (rep_self_iff.1 hu.self))
      obtain ⟨k, hk⟩ := hu
      refine ⟨k, hk, ?_⟩
      cases hk with
      | root => exact absurd rfl hne
      | step => exact Nat.succ_le_succ (Nat.le_trans hlen (Nat.zero_le _))
    · exact ⟨x :: l', .step h hxw hl', Nat.succ_le_succ hlen⟩

theorem flatter_shorten {l : List Name} (h : ∀ u ∈ l, p.Rep u r ∧ u ≠ r) :
    Flatter p (p.shorten l r) := by
  induction l generalizing p with
  | nil => exact Flatter.refl p
  | cons u l ih =>
    obtain ⟨hu, hne⟩ := h u (by simp)
    refine (flatter_insert hu hne).trans (ih ?_)
    intro w hw
    obtain ⟨hwr, hwne⟩ := h w (List.mem_cons_of_mem _ hw)
    exact ⟨((alike_insert hu hne).rep w r).2 hwr, hwne⟩

/-- Looking up a name makes no way longer. -/
theorem find_flatter (hp : p.WellFormed) (h : p.find v = .ok (r, q)) : Flatter p q := by
  have hv : v ∈ p.names := (find_ok hp h).1.mem_names
  obtain ⟨l, r', hf, -, hl⟩ := find_eq hp hv
  rw [hf] at h
  obtain ⟨rfl, rfl⟩ := Prod.mk.inj (Except.ok.inj h)
  exact flatter_shorten hl

theorem findAll_flatter {vs rs : List Name} (hp : p.WellFormed) (h : p.findAll vs = .ok (rs, q)) :
    Flatter p q := by
  induction vs generalizing p rs with
  | nil =>
    obtain ⟨-, rfl⟩ := Prod.mk.inj (Except.ok.inj h)
    exact Flatter.refl p
  | cons v vs ih =>
    rw [findAll] at h
    split at h
    · cases h
    · rename_i r t hf
      split at h
      · cases h
      · rename_i rs' t' hfa
        obtain ⟨-, rfl⟩ := Prod.mk.inj (Except.ok.inj h)
        exact (find_flatter hp hf).trans (ih ((find_ok hp hf).2.wellFormed hp) hfa)

theorem membersOf_flatter {vs ms : List Name} (hp : p.WellFormed)
    (h : p.membersOf r vs = .ok (ms, q)) : Flatter p q := by
  induction vs generalizing p ms with
  | nil =>
    obtain ⟨-, rfl⟩ := Prod.mk.inj (Except.ok.inj h)
    exact Flatter.refl p
  | cons v vs ih =>
    rw [membersOf] at h
    split at h
    · cases h
    · rename_i z t hf
      split at h
      · cases h
      · rename_i ms' t' hm
        obtain ⟨-, rfl⟩ := Prod.mk.inj (Except.ok.inj h)
        exact (find_flatter hp hf).trans (ih ((find_ok hp hf).2.wellFormed hp) hm)

/-- Shorter ways stay within the bound, as long as weights do not change. -/
theorem Balanced.of_flatter (hb : p.Balanced) (h : Flatter p q) (hw : q.weights = p.weights) :
    q.Balanced := by
  intro v l r n hl hn
  obtain ⟨l', hl', hlen⟩ := h hl
  rw [hw] at hn
  exact Nat.le_trans (Nat.pow_le_pow_right (by decide) hlen) (hb hl' hn)

/-! ## Changes -/

theorem balanced_empty : Balanced empty := by
  intro v l r n _ hn
  cases hn

theorem balanced_add (hp : p.WellFormed) (hb : p.Balanced) (v : Name) : (p.add v).Balanced := by
  rw [add]
  split
  · exact hb
  · rename_i hc
    have hv : v ∉ p.names := fun h => hc ((Table.contains_iff p.parents v).2 h)
    intro x l y n hl hn
    rw [Table.get?_insert] at hn
    rcases path_of_add hp hv hl with hl | ⟨-, rfl, rfl⟩
    · have hy : v ≠ y := by
        rintro rfl
        exact hv (Rep.mem_names ⟨[], .root hl.isRoot⟩)
      rw [if_neg hy] at hn
      exact hb hl hn
    · rw [if_pos rfl] at hn
      obtain rfl := Option.some.inj hn
      exact Nat.le_refl 1

/-- Two representatives weigh no more than all of them. -/
theorem add_le_totalWeight {rs : List Name} {total m n : Nat} (h : p.totalWeight rs = .ok total)
    (hu : u ∈ rs) (hw : w ∈ rs) (hne : u ≠ w) (hm : p.weights.get? u = some m)
    (hn : p.weights.get? w = some n) : m + n ≤ total := by
  have hw' : w ∈ rs.erase u := (List.mem_erase_of_ne (Ne.symm hne)).2 hw
  have hperm : rs.Perm (u :: w :: (rs.erase u).erase w) :=
    (List.perm_cons_erase hu).trans ((List.perm_cons_erase hw').cons u)
  rw [totalWeight_eq_sum h, (hperm.map _).sum_nat]
  simp only [List.map_cons, List.sum_cons, hm, hn, Option.getD_some]
  omega

theorem le_totalWeight {rs : List Name} {total n : Nat} (h : p.totalWeight rs = .ok total)
    (hu : u ∈ rs) (hn : p.weights.get? u = some n) : n ≤ total := by
  rw [totalWeight_eq_sum h, ((List.perm_cons_erase hu).map _).sum_nat]
  simp only [List.map_cons, List.sum_cons, hn, Option.getD_some]
  omega

/-- Representatives may be hung below one that outweighs them. -/
theorem balanced_hang (hp : p.WellFormed) (hb : p.Balanced) {roots : List Name} {top : Name}
    {total : Nat} (hroots : ∀ x ∈ roots, p.Rep x x) (hleads : p.Leads roots top)
    (htotal : p.totalWeight roots = .ok total) : (p.hang roots top total).Balanced := by
  have htop := hleads.mem hroots
  intro x l y n hl hn
  obtain ⟨l', z, hz, rfl, rfl⟩ := path_of_hang hroots htop hl
  rw [get?_weights_hang] at hn
  by_cases hmem : z ∈ roots
  · obtain ⟨m, -, hm⟩ := weight_spec hp (hroots z hmem)
    have hle : 2 ^ l'.length ≤ m := hb hz hm
    rw [if_pos hmem, if_pos rfl] at hn
    obtain rfl := Option.some.inj hn
    by_cases hzt : z = top
    · have hall := le_totalWeight htotal hmem hm
      rw [if_neg (by simp [hzt])]
      omega
    · -- the one on top weighs as much as the one below it, if not more
      obtain ⟨k, m', hk, hm', hover⟩ := hleads.outweighs z hmem z (hroots z hmem)
      obtain rfl := Option.some.inj (hm.symm.trans hm')
      have hall := add_le_totalWeight htotal hmem htop hzt hm hk
      rw [if_pos ⟨hmem, hzt⟩, List.length_append, List.length_singleton, Nat.pow_succ]
      omega
  · have hzt : top ≠ z := fun h => hmem (h ▸ htop)
    rw [if_neg hmem, if_neg hzt, if_neg hmem] at hn
    rw [if_neg (by simp [hmem])]
    exact hb hz hn

/-- Hanging the lighter regions below the heaviest keeps the bound: a way gets longer
    by one when the weight doubles at least. -/
theorem balanced_union {first : Name} {others : List Name} {top : Name} (hp : p.WellFormed)
    (hb : p.Balanced) (hvs : ∀ v ∈ first :: others, v ∈ p.names)
    (h : p.union first others = .ok (top, q)) : q.Balanced := by
  obtain ⟨top', q', t, rs, total, hok, hfa, ht, hmem, hleads, htotal, hq⟩ := union_eq hp hvs
  obtain ⟨rfl, rfl⟩ := Prod.mk.inj (Except.ok.inj (hok.symm.trans h))
  have hbt : t.Balanced := hb.of_flatter (findAll_flatter hp hfa) ht.weights
  rw [hq]
  split
  · exact hbt
  · exact balanced_hang (ht.wellFormed hp) hbt (rep_self_of_mem hmem) hleads htotal

/-- The others of a region that a name left are at most one step below the top. -/
theorem balanced_of_detached {parents : Table Name Name} {weights : Table Name Nat} {old : Name}
    {rest : List Name} (new : Name) (hb : p.Balanced) (hv : p.Rep v old)
    (hrest : ∀ x, x ∈ rest ↔ x ≠ v ∧ p.Rep x old) (hnew : rest ≠ [] → new ∈ rest)
    (hget : ∀ k, parents.get? k =
      if k ∈ rest then some new else if v = k then some v else p.parents.get? k)
    (hweights : ∀ k, weights.get? k = if k ∈ rest ∧ new = k then some rest.length
      else if v = k then some 1 else if old = k then none else p.weights.get? k) :
    (⟨parents, weights⟩ : Partition).Balanced := by
  intro x l y n hl hn
  have hn' := (hweights y).symm.trans hn
  rcases path_of_detached hv hrest hnew hget hl with
    ⟨-, rfl, rfl⟩ | ⟨hxv, hx, rfl, rfl⟩ | ⟨-, hl, hy⟩
  · have hvrest : y ∉ rest := fun h => ((hrest y).1 h).1 rfl
    rw [if_neg (fun h => hvrest h.1), if_pos rfl] at hn'
    obtain rfl := Option.some.inj hn'
    exact Nat.le_refl 1
  · have hxrest : x ∈ rest := (hrest x).2 ⟨hxv, hx⟩
    have hyrest : y ∈ rest := hnew (List.ne_nil_of_mem hxrest)
    rw [if_pos ⟨hyrest, rfl⟩] at hn'
    obtain rfl := Option.some.inj hn'
    split
    · exact List.length_pos_of_mem hxrest
    · -- `x` and the new top are two
      rename_i hxy
      have hsub : [x, y] ⊆ rest := by simp [hxrest, hyrest]
      have hnodup : [x, y].Nodup := by simp [hxy]
      simpa using (List.subperm_of_subset hnodup hsub).length_le
  · have hyy : p.Rep y y := rep_self_iff.2 hl.isRoot
    have hyrest : y ∉ rest := fun h => hy (hyy.unique ((hrest y).1 h).2)
    have hyv : v ≠ y := by
      rintro rfl
      exact hy (hyy.unique hv)
    rw [if_neg (fun h => hyrest h.1), if_neg hyv, if_neg (Ne.symm hy)] at hn'
    exact hb hl hn'

/-- Taking a name out leaves its region flat. -/
theorem balanced_detach {d : Detached} (hp : p.WellFormed) (hb : p.Balanced) (hv : v ∈ p.names)
    (h : p.detach v = .ok (d, q)) : q.Balanced := by
  obtain ⟨s, t, old, rest, hf, hm, ht, hvold, -, hrest, hcases⟩ := detach_eq hp hv
  have hs := (find_ok hp hf).2
  have hbt : t.Balanced := by
    refine hb.of_flatter ?_ ht.weights
    exact (find_flatter hp hf).trans (membersOf_flatter (hs.wellFormed hp) hm)
  rcases hcases with ⟨rfl, hok⟩ | ⟨new, hnew, -, hok⟩
  · obtain ⟨-, rfl⟩ := Prod.mk.inj (Except.ok.inj (hok.symm.trans h))
    -- nobody is left, so what the rest is hung below does not matter
    refine balanced_of_detached v hbt hvold hrest (by simp) ?_ ?_
    · intro k
      simp [Table.get?_insert]
    · intro k
      simp [Table.get?_insert, Table.get?_erase]
  · obtain ⟨-, rfl⟩ := Prod.mk.inj (Except.ok.inj (hok.symm.trans h))
    refine balanced_of_detached new hbt hvold hrest (fun _ => hnew) ?_ ?_
    · intro k
      rw [Table.get?_foldl_insert, Table.get?_insert]
    · intro k
      rw [Table.get?_insert, Table.get?_insert, Table.get?_erase]
      by_cases hk : new = k
      · subst hk
        simp [hnew]
      · simp [hk]

/-! ## Reached partitions -/

/-- The partitions that the operations lead to from the empty one. A copy of a
    partition is that partition. -/
inductive Reached : Partition → Prop
  | empty : Reached empty
  | add {p : Partition} (v : Name) (hp : Reached p) : Reached (p.add v)
  | find {p q : Partition} {v r : Name} (hp : Reached p) (h : p.find v = .ok (r, q)) : Reached q
  | union {p q : Partition} {first top : Name} {others : List Name} (hp : Reached p)
      (h : p.union first others = .ok (top, q)) : Reached q
  | detach {p q : Partition} {v : Name} {d : Detached} (hp : Reached p)
      (h : p.detach v = .ok (d, q)) : Reached q

/-- Whatever way a partition was reached, it is balanced. -/
theorem Reached.balanced (h : p.Reached) : p.WellFormed ∧ p.Balanced := by
  induction h with
  | empty => exact ⟨wellFormed_empty, balanced_empty⟩
  | add v _ ih =>
    obtain ⟨hp, hb⟩ := ih
    exact ⟨wellFormed_add hp v, balanced_add hp hb v⟩
  | find _ h ih =>
    obtain ⟨hp, hb⟩ := ih
    have hq := (find_ok hp h).2
    exact ⟨hq.wellFormed hp, hb.of_flatter (find_flatter hp h) hq.weights⟩
  | union _ h ih =>
    obtain ⟨hp, hb⟩ := ih
    have hvs := mem_names_of_union hp h
    obtain ⟨top, q, hok, hq, -⟩ := union_spec hp hvs
    obtain ⟨-, rfl⟩ := Prod.mk.inj (Except.ok.inj (h.symm.trans hok))
    exact ⟨hq, balanced_union hp hb hvs h⟩
  | detach _ h ih =>
    obtain ⟨hp, hb⟩ := ih
    have hv := mem_names_of_detach hp h
    obtain ⟨d', q', hok, hq, -⟩ := detach_spec hp hv
    obtain ⟨-, rfl⟩ := Prod.mk.inj (Except.ok.inj (h.symm.trans hok))
    exact ⟨hq, balanced_detach hp hb hv h⟩

/-- A name is at most as many steps below its representative as its region can be
    halved. -/
theorem two_pow_depth_le (h : p.Reached) (hv : v ∈ p.names) :
    ∃ path root weight q, Path p.parents v path root ∧ p.find v = .ok (root, q) ∧
      p.weights.get? root = some weight ∧ 2 ^ path.length ≤ weight := by
  obtain ⟨hp, hb⟩ := h.balanced
  obtain ⟨root, q, hfind, ⟨path, hpath⟩, -⟩ := find_spec hp hv
  obtain ⟨weight, -, hweight⟩ := weight_spec hp (rep_self_iff.2 hpath.isRoot)
  exact ⟨path, root, weight, q, hpath, hfind, hweight, hb hpath hweight⟩

/-- Four names, united in pairs and then together. -/
def paired : Except Untracked Partition := do
  let (_, p) ← ((((empty.add "a").add "b").add "c").add "d").union "a" ["b"]
  let (_, p) ← p.union "c" ["d"]
  let (_, p) ← p.union "a" ["c"]
  return p

theorem reached_paired (h : paired = .ok p) : p.Reached := by
  obtain ⟨⟨_, p₁⟩, h₁, h⟩ := ok_of_bind h
  obtain ⟨⟨_, p₂⟩, h₂, h⟩ := ok_of_bind h
  obtain ⟨⟨_, p₃⟩, h₃, h⟩ := ok_of_bind h
  obtain rfl := Except.ok.inj h
  exact (((((Reached.empty.add _).add _).add _).add _).union h₁ |>.union h₂).union h₃

/-- The bound is met: one of four names is two steps below the top. -/
theorem paired_depth : ∃ p, paired = .ok p ∧ p.parents.get? "d" = some "c" ∧
    p.parents.get? "c" = some "a" ∧ p.weights.get? "a" = some (2 ^ 2) ∧
    ∃ path root weight q, Path p.parents "d" path root ∧ p.find "d" = .ok (root, q) ∧
      p.weights.get? root = some weight ∧ 2 ^ path.length ≤ weight := by
  obtain ⟨p, hp⟩ : ∃ p, paired = .ok p := exists_ok_of_isSome (by decide +kernel)
  have hread : (paired.map fun p => (p.names, p.parents.get? "d", p.parents.get? "c",
      p.weights.get? "a")) = .ok (["a", "b", "c", "d"], some "c", some "a", some 4) := by
    decide +kernel
  rw [hp] at hread
  obtain ⟨hnames, hd, hc, ha⟩ : p.names = ["a", "b", "c", "d"] ∧ p.parents.get? "d" = some "c" ∧
      p.parents.get? "c" = some "a" ∧ p.weights.get? "a" = some 4 := by
    simpa [Except.map] using hread
  exact ⟨p, hp, hd, hc, ha, two_pow_depth_le (reached_paired hp) (by simp [hnames])⟩

end Partition
end Sendability
