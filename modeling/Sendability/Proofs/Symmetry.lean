/-
  Names and the order of blocks do not matter.

  `Func.Relabels ρ f g` says that `g` is `f` with its values renamed by `ρ` and
  its blocks listed in some order. Both functions are analysed side by side. They
  take the same blocks off the queue, since what is queued depends on the
  successors of a block and on whether an entry has changed, and the states of
  the two runs correspond: the view of one is the relabelled view of the other
  (`Regions.Mirrors`). They are not the same states after relabelling, since the
  order of blocks decides in which order exits are joined and so which names
  represent their regions; but equality of states sees the view only.

  One lemma for each part of the loop says that it keeps the runs together:
  `entryRegions_mirrors`, `propagate_mirrors`, `evaluate_mirrors` and
  `drain_mirrors`. That the accesses correspond is then a fact about views.
-/

import Mathlib.Data.List.Perm.Basic
import Sendability.Proofs.Exposure
import Sendability.Proofs.Potential
import Sendability.Proofs.Relabelling
import Sendability.Proofs.Transparency

namespace Sendability

open Equiv (Perm)

-- ============================================================================
-- Relabelled functions
-- ============================================================================

namespace Func

variable {ρ ρ' : Name → Name} {f g : Func} {n p t : Name} {i j : Nat} {b : Block}

/-- `g` is `f` with its values renamed and its blocks listed in some order. -/
structure Relabels (ρ : Name → Name) (f g : Func) : Prop where
  domain : g.domain = f.domain
  entry : g.entry = f.entry
  params : g.params = f.params.map (Value.rename ρ)
  blocks : g.blocks.entries.Perm (f.blocks.mapValues (Block.rename ρ)).entries

/-- The number in `g` of the block with number `i` in `f`. -/
def renumber (f g : Func) (i : Int) : Int :=
  if 0 ≤ i then ((f.blocks.keys[i.toNat]?).bind g.blockIndex?).elim i Int.ofNat else i

theorem Relabels.keys_perm (h : f.Relabels ρ g) : g.blocks.keys.Perm f.blocks.keys := by
  have hkeys : (f.blocks.mapValues (Block.rename ρ)).keys = f.blocks.keys := by
    simp only [Table.keys, Table.mapValues, List.map_map]
    rfl
  rw [← hkeys]
  exact h.blocks.map Prod.fst

/-- Each block of `f` stands in `g` under its name. -/
theorem Relabels.place (h : f.Relabels ρ g) (hat : f.At n i b) :
    ∃ j, g.At n j (b.rename ρ) := by
  have hmem : (n, b.rename ρ) ∈ (f.blocks.mapValues (Block.rename ρ)).entries :=
    List.mem_map.2 ⟨(n, b), List.mem_of_getElem? hat, rfl⟩
  exact List.getElem?_of_mem (h.blocks.mem_iff.2 hmem)

/-- Each block of `g` is one of `f`. -/
theorem Relabels.origin (h : f.Relabels ρ g) {b' : Block} (hat : g.At n j b') :
    ∃ i b, f.At n i b ∧ b' = b.rename ρ := by
  obtain ⟨⟨m, b⟩, hmem, heq⟩ := List.mem_map.1 (h.blocks.mem_iff.1 (List.mem_of_getElem? hat))
  obtain ⟨rfl, rfl⟩ := Prod.mk.inj heq
  obtain ⟨i, hi⟩ := List.getElem?_of_mem hmem
  exact ⟨i, b, hi, rfl⟩

/-- A block is renumbered to where it stands in the other function. -/
theorem At.renumber {b' : Block} (hat : f.At n i b) (hat' : g.At n j b') :
    f.renumber g i = j := by
  have hkey : f.blocks.keys[(i : Int).toNat]? = some n := hat.keys
  rw [Func.renumber, if_pos (Int.natCast_nonneg i), hkey, Option.bind_some, hat'.blockIndex?]
  rfl

/-- A number without a block stays as it is. -/
theorem renumber_of_forall_not_at {k : Int} (h : ∀ n i b, f.At n i b → k ≠ i) :
    f.renumber g k = k := by
  rw [renumber]
  split
  · rename_i hk
    have hnone : f.blocks.keys[k.toNat]? = none := by
      rw [List.getElem?_eq_none_iff, Table.keys, List.length_map]
      by_contra hlt
      have hat : f.At _ k.toNat _ := List.getElem?_eq_getElem (Nat.lt_of_not_le hlt)
      exact h _ _ _ hat (Int.toNat_of_nonneg hk).symm
    rw [hnone]
    rfl
  · rfl

/-- Going from the numbers of `f` to those of `g` and back changes nothing. -/
theorem renumber_renumber (h : g.blocks.keys.Perm f.blocks.keys) (k : Int) :
    g.renumber f (f.renumber g k) = k := by
  by_cases hk : ∃ n i b, f.At n i b ∧ k = i
  · obtain ⟨n, i, b, hat, rfl⟩ := hk
    obtain ⟨j, b', hat'⟩ := exists_at_of_mem (h.mem_iff.2 (List.mem_of_getElem? hat.keys))
    rw [hat.renumber hat', hat'.renumber hat]
  · have hf : ∀ n i b, f.At n i b → k ≠ i := fun n i b hat heq => hk ⟨n, i, b, hat, heq⟩
    have hlength : g.blocks.entries.length = f.blocks.entries.length := by
      simpa [Table.keys] using h.length_eq
    have hg : ∀ n i b, g.At n i b → k ≠ i := by
      intro n i b hat
      -- both have blocks for the numbers below the number of blocks
      have hlt : i < g.blocks.entries.length := (List.getElem?_eq_some_iff.1 hat).1
      exact hf _ i _ (List.getElem?_eq_getElem (hlength ▸ hlt))
    rw [renumber_of_forall_not_at hf, renumber_of_forall_not_at hg]

/-- The new numbers of blocks, as a permutation of all numbers. -/
def renumbering (h : g.blocks.keys.Perm f.blocks.keys) : Perm Int where
  toFun := f.renumber g
  invFun := g.renumber f
  left_inv := renumber_renumber h
  right_inv := renumber_renumber h.symm

-- ----------------------------------------------------------------------------
-- Values
-- ----------------------------------------------------------------------------

theorem At.dest_mem_values (hat : f.At n i b) {op : Op} (hop : op ∈ b.ops) {v : Value}
    (hv : v ∈ op.dest?) : v ∈ f.values :=
  List.mem_append_left _ (hat.mem_definitions hop hv)

theorem At.operand_mem_values (hat : f.At n i b) {l : List (Value × AccessKind)}
    (hl : l ∈ b.operandLists) {e : Value × AccessKind} (he : e ∈ l) : e.1 ∈ f.values := by
  have hb : b ∈ f.blocks.values := List.mem_map_of_mem (List.mem_of_getElem? hat)
  refine List.mem_append_right _ (List.mem_flatMap.2 ⟨b, hb, ?_⟩)
  exact List.mem_map_of_mem (List.mem_flatten.2 ⟨l, hl, he⟩)

/-- Only the names of the values of a function matter. -/
theorem Relabels.congr (h : f.Relabels ρ g) (hagree : ∀ v ∈ f.values, ρ v.name = ρ' v.name) :
    f.Relabels ρ' g where
  domain := h.domain
  entry := h.entry
  params := by
    rw [h.params]
    refine Value.map_rename_congr fun v hv => hagree v ?_
    exact List.mem_append_left _ (List.mem_append_left _ hv)
  blocks := by
    have hentries : (f.blocks.mapValues (Block.rename ρ)).entries =
        (f.blocks.mapValues (Block.rename ρ')).entries := by
      refine List.map_congr_left fun e he => ?_
      obtain ⟨i, hat⟩ := List.getElem?_of_mem he
      have hplace : f.At e.1 i e.2 := hat
      rw [Block.rename_congr (fun op hop v hv => hagree v (hplace.dest_mem_values hop hv))
        fun l hl e he => hagree e.1 (hplace.operand_mem_values hl he)]
    rw [← hentries]
    exact h.blocks

-- ----------------------------------------------------------------------------
-- The bound
-- ----------------------------------------------------------------------------

theorem Relabels.values_perm (h : f.Relabels ρ g) :
    g.blocks.values.Perm (f.blocks.values.map (Block.rename ρ)) := by
  have hvalues : (f.blocks.mapValues (Block.rename ρ)).values =
      f.blocks.values.map (Block.rename ρ) := by
    simp only [Table.values, Table.mapValues, List.map_map]
    rfl
  rw [← hvalues]
  exact h.blocks.map Prod.snd

theorem Relabels.definitions_perm (h : f.Relabels ρ g) :
    g.definitions.Perm (f.definitions.map (Value.rename ρ)) := by
  have hdests : ∀ b : Block, (b.rename ρ).ops.filterMap Op.dest? =
      (b.ops.filterMap Op.dest?).map (Value.rename ρ) := by
    intro b
    rw [Block.rename, List.filterMap_map, List.map_filterMap]
    refine List.filterMap_congr fun op _ => ?_
    exact Op.dest?_rename op
  rw [definitions, definitions, h.params, List.map_append, List.map_flatMap]
  refine List.Perm.append_left _ ((h.values_perm.flatMap_right _).trans (List.Perm.of_eq ?_))
  rw [List.flatMap_map]
  simp only [hdests]

theorem Relabels.callCount_eq (h : f.Relabels ρ g) : f.callCount = g.callCount := by
  have hops : (f.blocks.values.map (Block.rename ρ)).flatMap Block.ops =
      (f.blocks.values.flatMap Block.ops).map (Op.rename ρ) := by
    rw [List.flatMap_map, List.map_flatMap]
    rfl
  rw [callCount, callCount, (h.values_perm.flatMap_right Block.ops).countP_eq, hops,
    List.countP_map]
  congr 1
  funext op
  cases op with
  | _ => rfl

/-- The names of regions are relabelled, in another order. -/
theorem Relabels.regionNames_perm {π : Perm Name} (h : f.Relabels π g) :
    g.regionNames.Perm (f.regionNames.map π) := by
  have hnodup : (f.regionNames.map π).Nodup := (nodup_distinct _).map π.injective
  refine (List.perm_ext_iff_of_nodup (nodup_distinct _) hnodup).2 fun n => ?_
  simp only [regionNames, mem_distinct, List.mem_map, List.mem_filter, h.definitions_perm.mem_iff]
  refine ⟨?_, ?_⟩
  · rintro ⟨_, ⟨⟨v, hv, rfl⟩, hsend⟩, rfl⟩
    exact ⟨v.name, ⟨v, ⟨hv, hsend⟩, rfl⟩, rfl⟩
  · rintro ⟨_, ⟨v, ⟨hv, hsend⟩, rfl⟩, rfl⟩
    exact ⟨v.rename π, ⟨⟨v, hv, rfl⟩, hsend⟩, rfl⟩

theorem Relabels.iterationBound_eq {π : Perm Name} (h : f.Relabels π g) :
    f.iterationBound = g.iterationBound := by
  have hnames : g.regionNames.length = f.regionNames.length := by
    rw [h.regionNames_perm.length_eq, List.length_map]
  have hsize : g.blocks.size = f.blocks.size := by
    rw [Table.size, h.blocks.length_eq, Table.mapValues, List.length_map, Table.size]
  simp only [iterationBound, hnames, hsize, h.callCount_eq]

end Func

-- ============================================================================
-- States of two runs
-- ============================================================================

/-- `t` is `s` under other names and numbers, as far as queries tell. -/
structure Regions.Mirrors (π : Perm Name) (φ : Perm Int) (P Q : Site → Prop) (s t : Regions) :
    Prop where
  left : s.WellFormed P
  right : t.WellFormed Q
  view : t.view = s.view.relabel π φ

/-- The same blocks have states, and these correspond. -/
def Table.Mirrors (π : Perm Name) (φ : Perm Int) (P Q : Site → Prop) (T T' : Table Name Regions) :
    Prop :=
  ∀ n, Option.Rel (Regions.Mirrors π φ P Q) (T.get? n) (T'.get? n)

/-- Two runs that have come equally far. -/
structure Progress.Mirrors {σ : Type} (π : Perm Name) (φ : Perm Int) (P Q : Site → Prop)
    (p q : Progress σ) : Prop where
  entries : Table.Mirrors π φ P Q p.entries q.entries
  exits : Table.Mirrors π φ P Q p.exits q.exits
  queue : q.queue = p.queue
  evaluations : q.evaluations = p.evaluations

/-- Two functions whose blocks do the same under other names and numbers. -/
structure Func.Mirrors (π : Perm Name) (φ : Perm Int) (kinds kinds' : Op → Crossing)
    (f g : Func) : Prop where
  entry : g.entry = f.entry
  place : ∀ {n i b}, f.At n i b → ∃ j, g.At n j (b.rename π) ∧ φ i = j
  origin : ∀ {n j b'}, g.At n j b' → ∃ i b, f.At n i b ∧ b' = b.rename π
  kinds : ∀ op, kinds' (op.rename π) = kinds op

section Runs

variable {σ : Type} {π : Perm Name} {φ : Perm Int} {P Q : Site → Prop} {f g : Func}
  {c : Classifier σ} {kinds kinds' : Op → Crossing} {initial initial' : Regions} {n : Name}

theorem exists_right_of_rel {α β : Type} {R : α → β → Prop} {x : Option α} {y : Option β}
    (h : Option.Rel R x y) {a : α} (hx : x = some a) : ∃ b, y = some b ∧ R a b := by
  cases h with
  | none => cases hx
  | some hab => exact ⟨_, rfl, Option.some.inj hx ▸ hab⟩

theorem exists_left_of_rel {α β : Type} {R : α → β → Prop} {x : Option α} {y : Option β}
    (h : Option.Rel R x y) {b : β} (hy : y = some b) : ∃ a, x = some a ∧ R a b := by
  cases h with
  | none => cases hy
  | some hab => exact ⟨_, rfl, Option.some.inj hy ▸ hab⟩

theorem rel_of_rel {α β : Type} {R R' : α → β → Prop} {x : Option α} {y : Option β}
    (h : Option.Rel R x y) (himp : ∀ a b, x = some a → R a b → R' a b) : Option.Rel R' x y := by
  cases h with
  | none => exact .none
  | some hab => exact .some (himp _ _ rfl hab)

namespace Table.Mirrors

variable {T T' : Table Name Regions}

theorem left (h : Table.Mirrors π φ P Q T T') (n : Name) (s : Regions) (hs : T.get? n = some s) :
    s.WellFormed P := by
  obtain ⟨_, _, hmirror⟩ := exists_right_of_rel (h n) hs
  exact hmirror.left

theorem right (h : Table.Mirrors π φ P Q T T') (n : Name) (t : Regions) (ht : T'.get? n = some t) :
    t.WellFormed Q := by
  obtain ⟨_, _, hmirror⟩ := exists_left_of_rel (h n) ht
  exact hmirror.right

theorem empty : Table.Mirrors π φ P Q Table.empty Table.empty := fun _ => .none

/-- Tables correspond after corresponding states are entered under one name. -/
theorem insert (h : Table.Mirrors π φ P Q T T') {s t : Regions}
    (hst : Regions.Mirrors π φ P Q s t) (m : Name) :
    Table.Mirrors π φ P Q (T.insert m s) (T'.insert m t) := by
  intro n
  rw [Table.get?_insert, Table.get?_insert]
  split
  · exact .some hst
  · exact h n

end Table.Mirrors

namespace Func

theorem Mirrors.edge_iff (h : f.Mirrors π φ kinds kinds' g) (p t : Name) :
    g.Edge p t ↔ f.Edge p t := by
  refine ⟨?_, ?_⟩
  · rintro ⟨j, b', hat, ht⟩
    obtain ⟨i, b, hat', rfl⟩ := h.origin hat
    exact ⟨i, b, hat', Block.successors_rename b ▸ ht⟩
  · rintro ⟨i, b, hat, ht⟩
    obtain ⟨j, hat', -⟩ := h.place hat
    exact ⟨j, _, hat', (Block.successors_rename b).symm ▸ ht⟩

theorem Mirrors.reaches_iff (h : f.Mirrors π φ kinds kinds' g) (n : Name) :
    g.Reaches n ↔ f.Reaches n := by
  have hedge : g.Edge = f.Edge := by
    funext p t
    exact propext (h.edge_iff p t)
  rw [Reaches, Reaches, hedge, h.entry]

section Exits

variable {exits exits' : Table Name Regions}

/-- Something flows into a block exactly when something flows into its mirror image. -/
theorem Mirrors.inflow_iff (h : f.Mirrors π φ kinds kinds' g)
    (hexits : Table.Mirrors π φ P Q exits exits') (n : Name) : g.Inflow exits' n ↔ f.Inflow exits n := by
  refine or_congr (by rw [h.entry]) ⟨?_, ?_⟩
  · rintro ⟨p, e', hp, he'⟩
    obtain ⟨e, he, -⟩ := exists_left_of_rel (hexits p) he'
    exact ⟨p, e, (h.edge_iff p n).1 hp, he⟩
  · rintro ⟨p, e, hp, he⟩
    obtain ⟨e', he', -⟩ := exists_right_of_rel (hexits p) he
    exact ⟨p, e', (h.edge_iff p n).2 hp, he'⟩

theorem Mirrors.bounds_iff (h : f.Mirrors π φ kinds kinds' g)
    (hinitial : Regions.Mirrors π φ P Q initial initial')
    (hexits : Table.Mirrors π φ P Q exits exits') (n : Name) (U : View) :
    g.Bounds initial' exits' n U ↔ f.Bounds initial exits n (U.relabel π.symm φ.symm) := by
  refine ⟨?_, ?_⟩
  · intro hU
    refine ⟨?_, ?_⟩
    · intro hn
      rw [← View.relabel_le_iff, ← hinitial.view]
      exact hU.start (hn.trans h.entry.symm)
    · intro p e hp he
      obtain ⟨e', he', hmirror⟩ := exists_right_of_rel (hexits p) he
      rw [← View.relabel_le_iff, ← hmirror.view]
      exact hU.edge p e' ((h.edge_iff p n).2 hp) he'
  · intro hU
    refine ⟨?_, ?_⟩
    · intro hn
      rw [hinitial.view, View.relabel_le_iff]
      exact hU.start (hn.trans h.entry)
    · intro p e' hp he'
      obtain ⟨e, he, hmirror⟩ := exists_left_of_rel (hexits p) he'
      rw [hmirror.view, View.relabel_le_iff]
      exact hU.edge p e ((h.edge_iff p n).1 hp) he

/-- The entries of a block correspond: each is the least view above what flows in,
    and what flows in corresponds. -/
theorem entryRegions_mirrors (h : f.Mirrors π φ kinds kinds' g) (hP : Site.Closed P)
    (hQ : Site.Closed Q) (hinitial : Regions.Mirrors π φ P Q initial initial')
    (hexits : Table.Mirrors π φ P Q exits exits') (n : Name) :
    (f.entryRegions initial exits n = .ok none ∧ g.entryRegions initial' exits' n = .ok none) ∨
    ∃ s t, f.entryRegions initial exits n = .ok (some s) ∧
      g.entryRegions initial' exits' n = .ok (some t) ∧ Regions.Mirrors π φ P Q s t := by
  have hbounds := h.bounds_iff hinitial hexits n
  rcases entryRegions_spec (f := f) hP hinitial.left hexits.left n with
    ⟨hin, hnone⟩ | ⟨hin, s, hs, hswf, hsb, hsleast⟩
  · rcases entryRegions_spec (f := g) hQ hinitial.right hexits.right n with ⟨-, hnone'⟩ | ⟨hin', -⟩
    · exact .inl ⟨hnone, hnone'⟩
    · exact absurd ((h.inflow_iff hexits n).1 hin') hin
  · rcases entryRegions_spec (f := g) hQ hinitial.right hexits.right n with
      ⟨hin', -⟩ | ⟨-, t, ht, htwf, htb, htleast⟩
    · exact absurd ((h.inflow_iff hexits n).2 hin) hin'
    · refine .inr ⟨s, t, hs, ht, hswf, htwf, le_antisymm ?_ ?_⟩
      · apply htleast _ ((Regions.lawful_view hswf).relabel π φ)
        rw [hbounds, View.relabel_relabel_symm]
        exact hsb
      · rw [View.relabel_le_iff]
        exact hsleast _ ((Regions.lawful_view htwf).relabel _ _) ((hbounds t.view).1 htb)

end Exits

/-- Looking at some successors queues the same ones in both runs. -/
theorem propagate_mirrors (h : f.Mirrors π φ kinds kinds' g)
    (hf : f.Regular c kinds P initial) (hg : g.Regular c kinds' Q initial')
    (hinitial : Regions.Mirrors π φ P Q initial initial') {pending : List Name}
    (hleft : ∀ t ∈ pending, t ∈ f.blocks.keys) (hright : ∀ t ∈ pending, t ∈ g.blocks.keys)
    {p q : Progress σ} (hpq : Progress.Mirrors π φ P Q p q) :
    ∃ p' q', f.propagate initial p pending = .ok p' ∧ g.propagate initial' q pending = .ok q' ∧
      Progress.Mirrors π φ P Q p' q' := by
  induction pending generalizing p q with
  | nil => exact ⟨p, q, rfl, rfl, hpq⟩
  | cons n rest ih =>
    -- looking at the first one keeps the runs together, and so does looking at the others
    have hgo : ∀ p₁ q₁ : Progress σ, f.refresh initial p n = .ok p₁ →
        g.refresh initial' q n = .ok q₁ → Progress.Mirrors π φ P Q p₁ q₁ →
        ∃ p' q', f.propagate initial p (n :: rest) = .ok p' ∧
          g.propagate initial' q (n :: rest) = .ok q' ∧ Progress.Mirrors π φ P Q p' q' := by
      intro p₁ q₁ hp₁ hq₁ hmirror
      obtain ⟨p', q', hp', hq', hmirror'⟩ := ih (fun t ht => hleft t (List.mem_cons_of_mem _ ht))
        (fun t ht => hright t (List.mem_cons_of_mem _ ht)) hmirror
      exact ⟨p', q', (propagate_cons (hleft n (by simp)) hp₁ rest).trans hp',
        (propagate_cons (hright n (by simp)) hq₁ rest).trans hq', hmirror'⟩
    rcases entryRegions_mirrors h hf.closed hg.closed hinitial hpq.exits n with
      ⟨hnone, hnone'⟩ | ⟨s, t, hs, ht, hst⟩
    · exact hgo p q (refresh_of_none hnone) (refresh_of_none hnone') hpq
    · -- an entry is the new one in both runs or in neither
      rcases unchanged_spec hf.coherent hst.left (hpq.entries.left n) with ⟨hun, u, hu, huview⟩ | ⟨hun, hne⟩
      · have hun' : unchanged q.entries n t = .ok true := by
          obtain ⟨w, hw, huw⟩ := exists_right_of_rel (hpq.entries n) hu
          rcases unchanged_spec hg.coherent hst.right (hpq.entries.right n) with ⟨hun', -⟩ | ⟨-, hne'⟩
          · exact hun'
          · exact absurd (by rw [huw.view, huview, hst.view]) (hne' w hw)
        exact hgo p q (refresh_of_unchanged hs hun) (refresh_of_unchanged ht hun') hpq
      · have hun' : unchanged q.entries n t = .ok false := by
          rcases unchanged_spec hg.coherent hst.right (hpq.entries.right n) with ⟨-, w, hw, hwview⟩ | ⟨hun', -⟩
          · obtain ⟨u, hu, huw⟩ := exists_left_of_rel (hpq.entries n) hw
            rw [huw.view, hst.view, View.relabel_inj] at hwview
            exact absurd hwview (hne u hu)
          · exact hun'
        have hnext : Progress.Mirrors π φ P Q
            { p with entries := p.entries.insert n s, queue := enqueue p.queue n }
            { q with entries := q.entries.insert n t, queue := enqueue q.queue n } :=
          ⟨hpq.entries.insert hst n, hpq.exits, by rw [hpq.queue], hpq.evaluations⟩
        exact hgo _ _ (refresh_of_changed hs hun) (refresh_of_changed ht hun') hnext

/-- Running over a block and its image keeps states together. -/
theorem passBlock_mirrors (h : f.Mirrors π φ kinds kinds' g)
    (hf : f.Regular c kinds P initial) (hg : g.Regular c kinds' Q initial') {i j : Nat} {b : Block}
    (hat : f.At n i b) (hat' : g.At n j (b.rename π)) (hij : φ i = j) {s t : Regions}
    (hst : Regions.Mirrors π φ P Q s t) (memory memory' : σ) :
    ∃ r r', f.passBlock c false memory s i b = .ok r ∧
      g.passBlock c false memory' t j (b.rename π) = .ok r' ∧
      Regions.Mirrors π φ P Q r.regions r'.regions := by
  obtain ⟨r, hr, hrwf, hrview, -⟩ :=
    passBlock_spec hf.closed hst.left hf.answers false memory i (hf.makes hat)
  obtain ⟨r', hr', hrwf', hrview', -⟩ :=
    passBlock_spec hg.closed hst.right hg.answers false memory' j (hg.makes hat')
  refine ⟨r, r', hr, hr', hrwf, hrwf', ?_⟩
  rw [hrview', hrview, View.relabel_passBlock π φ i s.view fun op _ => h.kinds op, hst.view, hij]

/-- One evaluation keeps the runs together. -/
theorem evaluate_mirrors (h : f.Mirrors π φ kinds kinds' g)
    (hf : f.Regular c kinds P initial) (hg : g.Regular c kinds' Q initial')
    (hinitial : Regions.Mirrors π φ P Q initial initial') {p q : Progress σ}
    (hpq : Progress.Mirrors π φ P Q p q) (hinv : Invariant f kinds P initial [] p)
    (hn : n ∈ p.queue) :
    ∃ p' q', f.evaluate c initial { p with queue := p.queue.erase n } n = .ok p' ∧
      g.evaluate c initial' { q with queue := q.queue.erase n } n = .ok q' ∧
      Progress.Mirrors π φ P Q p' q' := by
  obtain ⟨s, hs⟩ := hinv.queued hn
  obtain ⟨t, ht, hst⟩ := exists_right_of_rel (hpq.entries n) hs
  obtain ⟨i, b, hat⟩ := hf.reached (hinv.entries hs).2
  obtain ⟨j, hat', hij⟩ := h.place hat
  have hleft := hf.targets (hinv.entries hs).2 hat
  have hright : ∀ t ∈ b.successors, t ∈ g.blocks.keys := by
    intro t ht
    obtain ⟨k, b', htarget⟩ := exists_at_of_mem (hleft t ht)
    obtain ⟨k', htarget', -⟩ := h.place htarget
    exact List.mem_of_getElem? htarget'.keys
  obtain ⟨r, r', hr, hr', hrr⟩ := passBlock_mirrors h hf hg hat hat' hij hst p.memory q.memory
  have hnext : Progress.Mirrors π φ P Q
      ⟨p.entries, p.exits.insert n r.regions, p.queue.erase n, p.evaluations + 1, r.memory⟩
      ⟨q.entries, q.exits.insert n r'.regions, q.queue.erase n, q.evaluations + 1, r'.memory⟩ :=
    ⟨hpq.entries, hpq.exits.insert hrr n, by rw [hpq.queue], by rw [hpq.evaluations]⟩
  obtain ⟨p', q', hp', hq', hmirror⟩ := propagate_mirrors h hf hg hinitial hleft hright hnext
  refine ⟨p', q', ?_, ?_, hmirror⟩
  · rw [evaluate, hat.get?, hat.blockIndex?, hs]
    simp only [hr, bind, Except.bind, hp', orUntracked]
  · rw [evaluate, hat'.get?, hat'.blockIndex?, ht]
    simp only [hr', bind, Except.bind, Block.successors_rename, hq', orUntracked]

/-- Draining the queue ends in corresponding progress, or is stopped in both runs. -/
theorem drain_mirrors (h : f.Mirrors π φ kinds kinds' g)
    (hf : f.Regular c kinds P initial) (hg : g.Regular c kinds' Q initial')
    (hinitial : Regions.Mirrors π φ P Q initial initial') (bound : Int) (fuel : Nat)
    {p q : Progress σ} (hpq : Progress.Mirrors π φ P Q p q)
    (hinv : Invariant f kinds P initial [] p) :
    (∃ p' q', f.drain c initial bound fuel p = .ok p' ∧ g.drain c initial' bound fuel q = .ok q' ∧
      Progress.Mirrors π φ P Q p' q' ∧ Invariant f kinds P initial [] p') ∨
    (f.drain c initial bound fuel p = .error (.diverged f.name bound) ∧
      g.drain c initial' bound fuel q = .error (.diverged g.name bound)) := by
  induction fuel generalizing p q with
  | zero =>
    cases hqueue : p.queue with
    | nil =>
      have hqueue' : q.queue = [] := hpq.queue.trans hqueue
      exact .inl ⟨p, q, by simp only [drain, hqueue], by simp only [drain, hqueue'], hpq, hinv⟩
    | cons n rest =>
      have hqueue' : q.queue = n :: rest := hpq.queue.trans hqueue
      exact .inr ⟨by simp only [drain, hqueue], by simp only [drain, hqueue']⟩
  | succ fuel ih =>
    cases hqueue : p.queue with
    | nil =>
      have hqueue' : q.queue = [] := hpq.queue.trans hqueue
      exact .inl ⟨p, q, by simp only [drain, hqueue], by simp only [drain, hqueue'], hpq, hinv⟩
    | cons n rest =>
      have hqueue' : q.queue = n :: rest := hpq.queue.trans hqueue
      have hn : n ∈ p.queue := by simp [hqueue]
      obtain ⟨p₁, q₁, hp₁, hq₁, hmirror⟩ := evaluate_mirrors h hf hg hinitial hpq hinv hn
      have hinv₁ : Invariant f kinds P initial [] p₁ :=
        hinv.moves (Step.moves hf hinv ⟨n, hn, hp₁⟩)
      rw [hqueue, List.erase_cons_head] at hp₁
      rw [hqueue', List.erase_cons_head] at hq₁
      have hstep : f.drain c initial bound (fuel + 1) p = f.drain c initial bound fuel p₁ := by
        rw [drain, hqueue]
        simp only [hp₁, bind, Except.bind]
      have hstep' : g.drain c initial' bound (fuel + 1) q = g.drain c initial' bound fuel q₁ := by
        rw [drain, hqueue']
        simp only [hq₁, bind, Except.bind]
      rw [hstep, hstep']
      exact ih hmirror hinv₁

/-- Both runs start alike. -/
theorem startProgress_mirrors (h : f.Mirrors π φ kinds kinds' g)
    (hinitial : Regions.Mirrors π φ P Q initial initial') (memory : σ) :
    Progress.Mirrors π φ P Q (f.startProgress initial memory) (g.startProgress initial' memory) where
  entries := by
    rw [startProgress, startProgress, h.entry]
    exact Table.Mirrors.empty.insert hinitial f.entry
  exits := Table.Mirrors.empty
  queue := by rw [startProgress, startProgress, h.entry]
  evaluations := rfl

end Func

end Runs

-- ============================================================================
-- Accesses
-- ============================================================================

/-- The access of the renamed value at the renumbered point. -/
def Access.relabel (ρ : Name → Name) (φ : Int → Int) (a : Access) : Access :=
  { a with
    point := a.point.renumber φ
    value := ρ a.value
    sites := a.sites.map (Site.relabel ρ φ) }

/-- A point and the values handed over there, under other names and numbers. -/
def relabelHandover (ρ : Name → Name) (φ : Int → Int) (p : (Int × Int) × Set Name) :
    (Int × Int) × Set Name :=
  ((φ p.1.1, p.1.2), ρ '' p.2)

def Access.Summary.relabel (ρ : Name → Name) (φ : Int → Int) (x : Access.Summary) :
    Access.Summary :=
  { x with
    point := x.point.renumber φ
    value := ρ x.value
    sites := relabelHandover ρ φ '' x.sites }

theorem handovers_relabel (ρ : Name → Name) (φ : Int → Int) (sites : List Site) :
    handovers (sites.map (Site.relabel ρ φ)) = relabelHandover ρ φ '' handovers sites := by
  have hone : ∀ x : Site, ((x.relabel ρ φ).point.key, {w | w ∈ (x.relabel ρ φ).values}) =
      relabelHandover ρ φ (x.point.key, {w | w ∈ x.values}) := by
    intro x
    refine Prod.ext rfl ?_
    ext w
    simp [Site.relabel, relabelHandover]
  ext p
  refine ⟨?_, ?_⟩
  · rintro ⟨_, hmem, rfl⟩
    obtain ⟨x, hx, rfl⟩ := List.mem_map.1 hmem
    exact ⟨_, ⟨x, hx, rfl⟩, (hone x).symm⟩
  · rintro ⟨_, ⟨x, hx, rfl⟩, rfl⟩
    exact ⟨x.relabel ρ φ, List.mem_map_of_mem hx, (hone x).symm⟩

theorem summaries_relabel (ρ : Name → Name) (φ : Int → Int) (l : List Access) :
    summaries (l.map (Access.relabel ρ φ)) = Access.Summary.relabel ρ φ '' summaries l := by
  have hone : ∀ a : Access, (a.relabel ρ φ).summary = a.summary.relabel ρ φ := by
    intro a
    simp only [Access.summary, Access.relabel, Access.Summary.relabel, handovers_relabel]
  ext x
  refine ⟨?_, ?_⟩
  · rintro ⟨_, hmem, rfl⟩
    obtain ⟨a, ha, rfl⟩ := List.mem_map.1 hmem
    exact ⟨a.summary, ⟨a, ha, rfl⟩, (hone a).symm⟩
  · rintro ⟨_, ⟨a, ha, rfl⟩, rfl⟩
    exact ⟨a.relabel ρ φ, List.mem_map_of_mem ha, hone a⟩

namespace View

variable {kinds kinds' : Op → Crossing}

/-- The transfers of a name are relabelled with it. -/
theorem transfers_relabel (π : Perm Name) (φ : Perm Int) (A : View) (v : Name) :
    (A.relabel π φ).transfers (π v) = relabelHandover π φ '' A.transfers v := by
  have hvalues : ∀ k : Int × Int, {w | (A.relabel π φ).noted (π v) k (some w)} =
      π '' {w | A.noted v (φ.symm k.1, k.2) (some w)} := by
    intro k
    ext w
    rw [Set.mem_image_equiv]
    simp [relabel]
  ext ⟨k, S⟩
  refine ⟨?_, ?_⟩
  · rintro ⟨hk, hS⟩
    refine ⟨((φ.symm k.1, k.2), {w | A.noted v (φ.symm k.1, k.2) (some w)}), ⟨?_, rfl⟩, ?_⟩
    · simpa [relabel] using hk
    · refine Prod.ext ?_ (hS.trans (hvalues k)).symm
      simp [relabelHandover]
  · rintro ⟨⟨k', S'⟩, ⟨hk', hS'⟩, heq⟩
    obtain ⟨rfl, rfl⟩ := Prod.mk.inj heq
    obtain rfl : S' = {w | A.noted v k' (some w)} := hS'
    refine ⟨?_, ?_⟩
    · simpa [relabel] using hk'
    · refine Eq.trans ?_ (hvalues _).symm
      simp

theorem exposures_relabel (π : Perm Name) (φ : Perm Int) (A : View) (point : Point)
    (operands : List (Value × AccessKind)) :
    (A.relabel π φ).exposures (point.renumber φ) (operands.map fun e => (e.1.rename π, e.2)) =
      Access.Summary.relabel π φ '' A.exposures point operands := by
  have hnoted : ∀ v, (∃ k, (A.relabel π φ).noted (π v) k none) ↔ ∃ k, A.noted v k none := by
    intro v
    refine ⟨?_, ?_⟩
    · rintro ⟨k, hk⟩
      exact ⟨(φ.symm k.1, k.2), by simpa [relabel] using hk⟩
    · rintro ⟨k, hk⟩
      exact ⟨(φ k.1, k.2), by simpa [relabel] using hk⟩
  ext x
  refine ⟨?_, ?_⟩
  · rintro ⟨_, hmem, hsend, hk, rfl⟩
    obtain ⟨e, he, rfl⟩ := List.mem_map.1 hmem
    refine ⟨_, ⟨e, he, hsend, (hnoted e.1.name).1 hk, rfl⟩, ?_⟩
    simp only [Access.Summary.relabel, ← transfers_relabel]
    rfl
  · rintro ⟨_, ⟨e, he, hsend, hk, rfl⟩, rfl⟩
    refine ⟨(e.1.rename π, e.2), List.mem_map.2 ⟨e, he, rfl⟩, hsend, (hnoted e.1.name).2 hk, ?_⟩
    simp only [Access.Summary.relabel, ← transfers_relabel]
    rfl

theorem opExposures_relabel (π : Perm Name) (φ : Perm Int) (index i : Int) (label : Name)
    (A : View) {ops : List Op} (hkinds : ∀ op ∈ ops, kinds' (op.rename π) = kinds op) :
    opExposures kinds' (φ index) label i (A.relabel π φ) (ops.map (Op.rename π)) =
      Access.Summary.relabel π φ '' opExposures kinds index label i A ops := by
  induction ops generalizing i A with
  | nil => exact (Set.image_empty _).symm
  | cons op rest ih =>
    have hrest := ih (i + 1) (A.apply (kinds op) (index, i) op) fun op' hop' =>
      hkinds op' (List.mem_cons_of_mem _ hop')
    rw [relabel_apply] at hrest
    rw [List.map_cons, opExposures, opExposures, Set.image_union, hkinds op (by simp), hrest,
      Op.operands_rename, ← exposures_relabel]
    rfl

/-- The accesses of a block are relabelled with it. -/
theorem blockExposures_relabel (π : Perm Name) (φ : Perm Int) (index : Int) (A : View) {b : Block}
    (hkinds : ∀ op ∈ b.ops, kinds' (op.rename π) = kinds op) :
    blockExposures kinds' (φ index) (b.rename π) (A.relabel π φ) =
      Access.Summary.relabel π φ '' blockExposures kinds index b A := by
  have hterm : (b.rename π).terminator.toList.flatMap Terminator.operands =
      (b.terminator.toList.flatMap Terminator.operands).map fun e => (e.1.rename π, e.2) := by
    cases ht : b.terminator with
    | none => simp [Block.rename, ht]
    | some t => simp [Block.rename, ht, Terminator.operands_rename]
  have hlength : (b.rename π).ops.length = b.ops.length := List.length_map _
  rw [blockExposures, blockExposures, Set.image_union, ← relabel_passBlock π φ index A hkinds,
    hterm, hlength, ← opExposures_relabel π φ index 0 b.name A hkinds, ← exposures_relabel]
  rfl

end View

namespace Func

variable {σ : Type} {π : Perm Name} {φ : Perm Int} {P Q : Site → Prop} {f g : Func}
  {c : Classifier σ} {kinds kinds' : Op → Crossing} {initial initial' : Regions}

/-- From corresponding entries the last pass lists corresponding accesses. -/
theorem Mirrors.summaries_collect (h : f.Mirrors π φ kinds kinds' g)
    (hf : f.Regular c kinds P initial) (hg : g.Regular c kinds' Q initial')
    {entries entries' : Table Name Regions}
    (hentries : Table.Mirrors π φ P Q entries entries')
    {memory memory' m m' : σ} {accesses accesses' : List Access}
    (hcollect : f.collect c entries 0 memory f.blocks.entries = .ok (accesses, m))
    (hcollect' : g.collect c entries' 0 memory' g.blocks.entries = .ok (accesses', m')) :
    Access.Summary.relabel π φ '' summaries accesses = summaries accesses' := by
  -- what a block exposes corresponds to what its image exposes
  have hblock : ∀ {i j : Nat} {b s t}, φ i = j → Regions.Mirrors π φ P Q s t →
      View.blockExposures kinds' j (b.rename π) t.view =
        Access.Summary.relabel π φ '' View.blockExposures kinds i b s.view := by
    intro i j b s t hij hst
    rw [← View.blockExposures_relabel π φ i s.view fun op _ => h.kinds op, hst.view, hij]
  ext x
  rw [Func.summaries_collect hg hentries.right hcollect']
  refine ⟨?_, ?_⟩
  · rintro ⟨y, hy, rfl⟩
    obtain ⟨n, i, b, s, hat, hs, hy⟩ := (Func.summaries_collect hf hentries.left hcollect y).1 hy
    obtain ⟨j, hat', hij⟩ := h.place hat
    obtain ⟨t, ht, hst⟩ := exists_right_of_rel (hentries n) hs
    refine ⟨n, j, _, t, hat', ht, ?_⟩
    rw [hblock hij hst]
    exact ⟨y, hy, rfl⟩
  · rintro ⟨n, j, b', t, hat', ht, hx⟩
    obtain ⟨i, b, hat, rfl⟩ := h.origin hat'
    obtain ⟨k, hk, hij⟩ := h.place hat
    obtain rfl := (hk.unique hat').1
    obtain ⟨s, hs, hst⟩ := exists_left_of_rel (hentries n) ht
    rw [hblock hij hst] at hx
    obtain ⟨y, hy, rfl⟩ := hx
    exact ⟨y, (Func.summaries_collect hf hentries.left hcollect y).2 ⟨n, i, b, s, hat, hs, hy⟩, rfl⟩

-- ============================================================================
-- Analyses
-- ============================================================================

/-- A site is that of a call, and hands over values of the function. -/
def Leaves (f : Func) (c : Classifier σ) (x : Site) : Prop :=
  f.Stamped c x ∧ ∀ w ∈ x.values, ∃ v ∈ f.values, v.name = w

theorem regular_leaves (hvalid : f.validate = .ok ()) (hc : c.Steady) (memory : σ)
    (hinitial : Regions.entry f = .ok initial) :
    f.Regular c (fun op => (c.crossing memory f op).1) (f.Leaves c) initial := by
  have hreg := regular_of_validate hvalid hc memory hinitial
  refine ⟨?_, ?_, hreg.answers, ?_, ?_, hreg.reached⟩
  · intro x y hx hy hkey
    refine ⟨hreg.closed x y hx.1 hy.1 hkey, ?_⟩
    intro w hw
    rcases (Site.mem_values_merge x y w).1 hw with hw | hw
    · exact hx.2 w hw
    · exact hy.2 w hw
  · exact fun x y hx hy => hreg.coherent x y hx.1 hy.1
  · intro n i b hat j op hop call hcall hkind values types hne hdrawn htypes
    refine ⟨hreg.makes hat j op hop call hcall hkind values types hne hdrawn htypes, ?_⟩
    intro w hw
    obtain ⟨v, hv, -, hvw⟩ := hdrawn.2 w hw
    have hlist : op.operands ∈ b.operandLists :=
      List.mem_append_left _ (List.mem_map_of_mem (List.mem_of_getElem? hop))
    have hoperand : (v, AccessKind.argument) ∈ op.operands := by
      rw [hcall]
      exact List.mem_map_of_mem hv
    exact ⟨v, hat.operand_mem_values hlist hoperand, hvw⟩
  · obtain ⟨x, hx, hwf, -⟩ := entry_view f
    obtain rfl := Except.ok.inj (hinitial.symm.trans hx)
    exact hwf _

section Relabelled

theorem Relabels.annotated_eq {ρ : Name → Name} (h : f.Relabels ρ g) (call : Call) :
    Classifier.annotated g (call.rename ρ) = Classifier.annotated f call := by
  rw [Classifier.annotated, Classifier.annotated, h.domain]
  rfl

/-- A relabelled function mirrors the function, with its blocks renumbered. -/
theorem Relabels.mirrors (h : f.Relabels π g) (memory : σ) :
    f.Mirrors π (renumbering h.keys_perm)
      (fun op => ((Classifier.asWritten : Classifier σ).crossing memory f op).1)
      (fun op => ((Classifier.asWritten : Classifier σ).crossing memory g op).1) g where
  entry := h.entry
  place hat := by
    obtain ⟨j, hat'⟩ := h.place hat
    exact ⟨j, hat', hat.renumber hat'⟩
  origin := h.origin
  kinds op := by
    cases op with
    | call call => exact h.annotated_eq call
    | _ => rfl

theorem Relabels.stamped (h : f.Relabels π g) {x : Site}
    (hx : f.Stamped (Classifier.asWritten : Classifier σ) x) :
    g.Stamped (Classifier.asWritten : Classifier σ) (x.relabel π (renumbering h.keys_perm)) := by
  obtain ⟨n, i, b, j, call, hat, hop, hkey, hcallee, hkind, hsource⟩ := hx
  obtain ⟨hblock, hnumber⟩ := Prod.mk.inj hkey
  obtain ⟨i', hat'⟩ := h.place hat
  refine ⟨n, i', b.rename π, j, call.rename π, hat', ?_, ?_, hcallee, ?_, ?_⟩
  · rw [Block.rename, List.getElem?_map, hop]
    rfl
  · refine Prod.ext ?_ hnumber
    rw [← hat.renumber hat', ← hblock]
    rfl
  · exact fun memory => (h.annotated_eq call).trans (hkind memory)
  · exact hsource.trans h.domain.symm

theorem Relabels.regular (h : f.Relabels π g) (memory : σ)
    (hf : f.Regular (Classifier.asWritten : Classifier σ) kinds P initial)
    (hinitial' : Regions.entry g = .ok initial') :
    g.Regular (Classifier.asWritten : Classifier σ)
      (fun op => ((Classifier.asWritten : Classifier σ).crossing memory g op).1)
      (g.Stamped (Classifier.asWritten : Classifier σ)) initial' where
  closed := stamped_closed g _
  coherent := stamped_coherent g _ memory
  answers := asWritten_steady.answers g memory
  makes := stamped_makes asWritten_steady memory
  initial := by
    obtain ⟨x, hx, hwf, -⟩ := entry_view g
    obtain rfl := Except.ok.inj (hinitial'.symm.trans hx)
    exact hwf _
  reached hn := by
    obtain ⟨i, b, hat⟩ := hf.reached (((h.mirrors memory).reaches_iff _).1 hn)
    obtain ⟨j, hat'⟩ := h.place hat
    exact ⟨j, _, hat'⟩

/-- The non-sendable parameters are linked at the start of both. -/
theorem Relabels.entry_mirrors (h : f.Relabels π g) (φ : Perm Int) (P Q : Site → Prop) :
    ∃ s t, Regions.entry f = .ok s ∧ Regions.entry g = .ok t ∧ Regions.Mirrors π φ P Q s t := by
  obtain ⟨s, hs, hswf, hsview⟩ := entry_view f
  obtain ⟨t, ht, htwf, htview⟩ := entry_view g
  refine ⟨s, t, hs, ht, hswf P, htwf Q, ?_⟩
  rw [hsview, htview, View.relabel_clique]
  congr 1
  ext n
  rw [Set.mem_image_equiv, h.params]
  simp [Value.rename, Value.sendable, Equiv.eq_symm_apply]

/-- A state that mirrors another is the relabelled one, whatever change of names
    agrees with the permutation on the values of the function. -/
theorem Relabels.same_of_mirrors (h : f.Relabels π g) (memory : σ) {ρ : Name → Name}
    (hρ : ∀ v ∈ f.values, π v.name = ρ v.name) {s t : Regions}
    (hst : Regions.Mirrors π (renumbering h.keys_perm)
      (f.Leaves (Classifier.asWritten : Classifier σ))
      (g.Stamped (Classifier.asWritten : Classifier σ)) s t) (hle : s.view ≤ f.largest) :
    (s.relabel ρ (f.renumber g)).same t = .ok true := by
  have hrelabel : s.relabel ρ (f.renumber g) = s.relabel π (renumbering h.keys_perm) := by
    refine Regions.relabel_congr hst.left ?_ ?_ _
    · intro v hv
      have hmem : v ∈ f.regionNames := List.mem_toFinset.1 (hle.tracked v hv)
      simp only [regionNames, mem_distinct, List.mem_map, List.mem_filter] at hmem
      obtain ⟨d, ⟨hd, -⟩, rfl⟩ := hmem
      exact (hρ d (List.mem_append_left _ hd)).symm
    · intro x hx w hw
      obtain ⟨v, hv, rfl⟩ := hx.2 w hw
      exact (hρ v hv).symm
  rw [hrelabel]
  refine Regions.same_of_view (stamped_coherent g _ memory)
    (hst.left.relabel fun x hx => h.stamped hx.1) hst.right ?_
  rw [Regions.view_relabel hst.left, hst.view]

/-- What the changes of names do to the accesses of an analysis is the same, since
    these are about values of the function. -/
theorem accesses_relabel_congr {c : Classifier σ}
    (hf : f.Regular c kinds (f.Leaves c) initial) {entries : Table Name Regions}
    (hentries : ∀ n s, entries.get? n = some s → s.WellFormed (f.Leaves c)) {memory m : σ}
    {accesses : List Access}
    (hcollect : f.collect c entries 0 memory f.blocks.entries = .ok (accesses, m))
    {ρ ρ' : Name → Name} (hρ : ∀ v ∈ f.values, ρ v.name = ρ' v.name) (φ : Int → Int) :
    accesses.map (Access.relabel ρ φ) = accesses.map (Access.relabel ρ' φ) := by
  obtain ⟨l, m', hl, hsites, -⟩ := collect_all hf hentries memory
  obtain ⟨rfl, -⟩ := Prod.mk.inj (Except.ok.inj (hcollect.symm.trans hl))
  refine List.map_congr_left fun a ha => ?_
  have hvalue : ρ a.value = ρ' a.value := by
    obtain ⟨n, i, b, s, hat, -, hx⟩ :=
      (Func.summaries_collect hf hentries hcollect a.summary).1 ⟨a, ha, rfl⟩
    obtain ⟨operands, hoperands, e, he, heq⟩ := View.exists_operand_of_blockExposures hx
    have hname : a.value = e.1.name := heq
    rw [hname]
    exact hρ e.1 (hat.operand_mem_values hoperands he)
  have hmap : a.sites.map (Site.relabel ρ φ) = a.sites.map (Site.relabel ρ' φ) := by
    refine List.map_congr_left fun x hx => Site.relabel_congr ?_ φ
    intro w hw
    obtain ⟨v, hv, rfl⟩ := (hsites a ha x hx).2 w hw
    exact hρ v hv
  rw [Access.relabel, hvalue, hmap, Access.relabel]

/-- No entry of a run exceeds the largest view. -/
theorem Invariant.entry_le_largest {p : Progress σ} {n : Name} {s : Regions}
    (h : Invariant f kinds P initial [] p) (hf : f.Regular c kinds P initial)
    (hinitial : Regions.entry f = .ok initial) (hs : p.entries.get? n = some s) :
    s.view ≤ f.largest :=
  h.least (solves_largest hinitial hf.reached) hs

theorem Invariant.exit_le_largest {p : Progress σ} {n : Name} {e : Regions}
    (h : Invariant f kinds P initial [] p) (hf : f.Regular c kinds P initial)
    (hinitial : Regions.entry f = .ok initial) (he : p.exits.get? n = some e) :
    e.view ≤ f.largest := by
  obtain ⟨-, s, hs, hle⟩ := h.exits he
  obtain ⟨i, b, hat⟩ := hf.reached (h.entries hs).2
  have hentry := h.entry_le_largest hf hinitial hs
  calc e.view ≤ f.flow kinds n s.view := hle
    _ ≤ f.flow kinds n f.largest := flow_mono hentry (View.lawful_full _ _) n
    _ ≤ f.largest := flow_largest_le hat

/-- Both analyses end in corresponding results, or both are stopped. -/
theorem Relabels.solve_cases (h : f.Relabels π g) (hvalid : f.validate = .ok ())
    {ρ : Name → Name} (hρ : ∀ v ∈ f.values, π v.name = ρ v.name) (memory : σ) (bound : Int) :
    (∃ a m a' m', f.solve Classifier.asWritten memory bound = .ok (a, m) ∧
      g.solve Classifier.asWritten memory bound = .ok (a', m') ∧
      a.evaluations = a'.evaluations ∧
      (∀ n, Option.Rel (fun s t => (s.relabel ρ (f.renumber g)).same t = .ok true)
        (a.entries.get? n) (a'.entries.get? n)) ∧
      (∀ n, Option.Rel (fun s t => (s.relabel ρ (f.renumber g)).same t = .ok true)
        (a.exits.get? n) (a'.exits.get? n)) ∧
      summaries (a.accesses.map (Access.relabel ρ (f.renumber g))) = summaries a'.accesses) ∨
    (f.solve Classifier.asWritten memory bound = .error (.diverged f.name bound) ∧
      g.solve Classifier.asWritten memory bound = .error (.diverged g.name bound)) := by
  obtain ⟨s₀, t₀, hs₀, ht₀, hinitial⟩ := h.entry_mirrors (renumbering h.keys_perm)
    (f.Leaves (Classifier.asWritten : Classifier σ)) (g.Stamped (Classifier.asWritten : Classifier σ))
  have hm := h.mirrors memory
  have hf := regular_leaves hvalid asWritten_steady memory hs₀
  have hg := h.regular memory hf ht₀
  rcases drain_mirrors hm hf hg hinitial bound bound.toNat (startProgress_mirrors hm hinitial memory)
      (invariant_start hinitial.left memory) with ⟨p, q, hp, hq, hpq, hinv⟩ | ⟨hp, hq⟩
  · obtain ⟨l, m, hl, -⟩ := collect_all hf hpq.entries.left p.memory
    obtain ⟨l', m', hl', -⟩ := collect_all hg hpq.entries.right q.memory
    refine .inl ⟨⟨p.entries, p.exits, l, p.evaluations, bound⟩, m,
      ⟨q.entries, q.exits, l', q.evaluations, bound⟩, m', ?_, ?_, hpq.evaluations.symm, ?_, ?_, ?_⟩
    · simp only [solve, hs₀, hp, hl, orUntracked, bind, Except.bind, pure, Except.pure]
    · simp only [solve, ht₀, hq, hl', orUntracked, bind, Except.bind, pure, Except.pure]
    · intro n
      refine rel_of_rel (hpq.entries n) fun s t hs hst => ?_
      exact h.same_of_mirrors memory hρ hst (hinv.entry_le_largest hf hs₀ hs)
    · intro n
      refine rel_of_rel (hpq.exits n) fun e e' he hee => ?_
      exact h.same_of_mirrors memory hρ hee (hinv.exit_le_largest hf hs₀ he)
    · rw [← hm.summaries_collect hf hg hpq.entries hl hl', ← summaries_relabel,
        accesses_relabel_congr hf hpq.entries.left hl hρ]
      rfl
  · refine .inr ⟨?_, ?_⟩
    · simp only [solve, hs₀, hp, orUntracked, bind, Except.bind]
    · simp only [solve, ht₀, hq, orUntracked, bind, Except.bind]

end Relabelled

/-- Names and the order of blocks do not matter. For a function that passed
    validation, a change of names that keeps its values apart, and any order of
    its blocks: the bounds are equal, and with them or with any other bound both
    analyses end or both are stopped. If they end, they made the same number of
    evaluations, the states at the entries and exits are equal after relabelling,
    and so are the accesses. -/
theorem solve_relabelled {f g : Func} (hvalid : f.validate = .ok ()) {ρ : Name → Name}
    (hρ : ∀ v ∈ f.values, ∀ w ∈ f.values, ρ v.name = ρ w.name → v.name = w.name)
    (h : f.Relabels ρ g) (memory : σ) (bound : Option Int) :
    f.iterationBound = g.iterationBound ∧
    ((∃ a m a' m',
        f.solve Classifier.asWritten memory (bound.getD f.iterationBound) = .ok (a, m) ∧
        g.solve Classifier.asWritten memory (bound.getD g.iterationBound) = .ok (a', m') ∧
        a.evaluations = a'.evaluations ∧
        (∀ n, Option.Rel (fun s t => (s.relabel ρ (f.renumber g)).same t = .ok true)
          (a.entries.get? n) (a'.entries.get? n)) ∧
        (∀ n, Option.Rel (fun s t => (s.relabel ρ (f.renumber g)).same t = .ok true)
          (a.exits.get? n) (a'.exits.get? n)) ∧
        summaries (a.accesses.map (Access.relabel ρ (f.renumber g))) = summaries a'.accesses) ∨
      (f.solve Classifier.asWritten memory (bound.getD f.iterationBound) =
          .error (.diverged f.name (bound.getD f.iterationBound)) ∧
        g.solve Classifier.asWritten memory (bound.getD g.iterationBound) =
          .error (.diverged g.name (bound.getD g.iterationBound)))) := by
  have hinj : ∀ a ∈ f.values.map Value.name, ∀ b ∈ f.values.map Value.name, ρ a = ρ b → a = b := by
    intro a ha b hb
    obtain ⟨v, hv, rfl⟩ := List.mem_map.1 ha
    obtain ⟨w, hw, rfl⟩ := List.mem_map.1 hb
    exact hρ v hv w hw
  obtain ⟨π, hπ⟩ := exists_perm_of_injOn hinj
  have hagree : ∀ v ∈ f.values, π v.name = ρ v.name := fun v hv => hπ _ (List.mem_map_of_mem hv)
  have hrel : f.Relabels π g := h.congr fun v hv => (hagree v hv).symm
  refine ⟨hrel.iterationBound_eq, ?_⟩
  rw [← hrel.iterationBound_eq]
  exact hrel.solve_cases hvalid hagree memory _

/-- The sending loop with the names of its two values exchanged and its blocks
    listed from the last to the first. -/
def reversedLoop : Func :=
  let box : TypeInfo := ⟨"Box", false⟩
  { name := "relay"
    params := [⟨"y", box⟩]
    blocks := Table.ofList
      [("done", ⟨"done", [.use ⟨"y", box⟩ .read {}], some (.ret none {})⟩),
       ("loop", ⟨"loop",
         [.init ⟨"x", box⟩ [⟨"y", box⟩] {},
          .call { callee := "send", args := [⟨"x", box⟩], domain := some "worker" }],
         some (.branch ["loop", "done"] none {})⟩),
       ("entry", ⟨"entry", [], some (.goto "loop" {})⟩)] }

/-- Exchanges two names, and does not keep others apart. -/
def exchange (n : Name) : Name := if n = "x" then "y" else "x"

theorem sendingLoop_relabels : sendingLoop.Relabels exchange reversedLoop where
  domain := rfl
  entry := rfl
  params := by decide +kernel
  blocks := by
    have hreverse : reversedLoop.blocks.entries =
        (sendingLoop.blocks.mapValues (Block.rename exchange)).entries.reverse := by
      decide +kernel
    rw [hreverse]
    exact List.reverse_perm _

/-- The reversed loop takes as many evaluations, and its accesses are those of the
    loop. -/
theorem reversedLoop_relabelled : sendingLoop.validate = .ok () ∧
    sendingLoop.Relabels exchange reversedLoop ∧
    ∃ a a', sendingLoop.solve Classifier.asWritten () 40 = .ok (a, ()) ∧
      reversedLoop.solve Classifier.asWritten () 40 = .ok (a', ()) ∧
      a.evaluations = a'.evaluations ∧
      summaries (a.accesses.map (Access.relabel exchange (sendingLoop.renumber reversedLoop))) =
        summaries a'.accesses := by
  have hvalid : sendingLoop.validate = .ok () := by decide +kernel
  have hapart : ∀ v ∈ sendingLoop.values, ∀ w ∈ sendingLoop.values,
      exchange v.name = exchange w.name → v.name = w.name := by decide +kernel
  refine ⟨hvalid, sendingLoop_relabels, ?_⟩
  obtain ⟨⟨_, _⟩, hsolved⟩ := sendingLoop_solved
  rcases (solve_relabelled hvalid hapart sendingLoop_relabels () (some 40)).2 with
    ⟨a, _, a', _, hok, hok', hcount, -, -, haccesses⟩ | ⟨hdiverged, -⟩
  · exact ⟨a, a', hok, hok', hcount, haccesses⟩
  · have hno := hsolved.symm.trans hdiverged
    cases hno

end Func

end Sendability
