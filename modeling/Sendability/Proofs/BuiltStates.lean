/-
  States that the changes of regions lead to.

  `Regions.Built P` is the least set of states that holds the empty one and is
  closed under the changes, where every site that is marked satisfies `P`. Such
  states are well formed however they came about (`Built.wellFormed`). The
  states that an analysis goes through are among them (`AllBuilt.run`): the
  operations of a block, and the joins between blocks, are made of changes.
-/

import Sendability.Proofs.DataFlow

namespace Sendability

-- ============================================================================
-- States built by changes
-- ============================================================================

/-- States that changes lead to from the one without names, where every site that
    is marked satisfies `P`. Looking up a representative is a change too, since
    it shortens paths. -/
inductive Regions.Built (P : Site → Prop) : Regions → Prop
  | empty : Built P Regions.empty
  | track {s : Regions} (v : Name) : Built P s → Built P (s.track v)
  | find {s t : Regions} {v r : Name} : Built P s → s.find v = .ok (r, t) → Built P t
  | redefine {s t : Regions} {v : Name} : Built P s → s.redefine v = .ok t → Built P t
  | union {s t : Regions} {first top : Name} {others : List Name} :
      Built P s → s.union first others = .ok (top, t) → Built P t
  | mark {s t : Regions} {v : Name} {site : Site} :
      Built P s → P site → s.mark v site = .ok t → Built P t
  | join {s t u : Regions} : Built P s → Built P t → s.join t = .ok u → Built P u

/-- Only tracked names have a representative. -/
theorem Regions.mem_names_of_find {P : Site → Prop} {s t : Regions} (hs : s.WellFormed P)
    {v r : Name} (h : s.find v = .ok (r, t)) : v ∈ s.names := by
  rw [find] at h
  cases hf : s.partition.find v with
  | error e =>
    rw [hf] at h
    cases h
  | ok x => exact (Partition.find_ok hs.partition hf).1.mem_names

/-- Whatever way a state was built, it is well formed. -/
theorem Regions.Built.wellFormed {P : Site → Prop} (hP : Site.Closed P) {s : Regions}
    (h : Built P s) : s.WellFormed P := by
  induction h with
  | empty => exact wellFormed_empty
  | track v _ ih => exact wellFormed_track ih v
  | find _ hok ih =>
    obtain ⟨r, t, hf, -, ht⟩ := find_spec ih (mem_names_of_find ih hok)
    obtain ⟨-, rfl⟩ := Prod.mk.inj (Except.ok.inj (hok.symm.trans hf))
    exact ht.wellFormed ih
  | redefine _ hok ih =>
    obtain ⟨t, ht, htwf, -⟩ := redefine_spec ih _
    obtain rfl := Except.ok.inj (hok.symm.trans ht)
    exact htwf
  | @union s t first top others _ hok ih =>
    -- the names were tracked, else the first look-up had failed
    have hvs : ∀ v ∈ first :: others, v ∈ s.names := by
      cases hf : s.partition.findAll (first :: others) with
      | error e =>
        simp only [Regions.union, hf, bind, Except.bind] at hok
        cases hok
      | ok x => exact Partition.mem_names_of_findAll ih.partition hf
    obtain ⟨top', t', ht, htwf, -⟩ := union_spec hP ih hvs
    obtain ⟨-, rfl⟩ := Prod.mk.inj (Except.ok.inj (hok.symm.trans ht))
    exact htwf
  | @mark s t v site _ hsite hok ih =>
    have hv : v ∈ s.names := by
      cases hf : s.find v with
      | error e =>
        simp only [Regions.mark, hf, bind, Except.bind] at hok
        cases hok
      | ok x => exact mem_names_of_find ih hf
    obtain ⟨t', ht, htwf, -⟩ := mark_spec hP ih hv hsite
    obtain rfl := Except.ok.inj (hok.symm.trans ht)
    exact htwf
  | join _ _ hok ih ih' =>
    obtain ⟨u, hu, huwf, -⟩ := join_spec hP ih ih'
    obtain rfl := Except.ok.inj (hok.symm.trans hu)
    exact huwf

/-- A weaker property of the sites is kept by the same changes. -/
theorem Regions.Built.mono {P Q : Site → Prop} (hPQ : ∀ x, P x → Q x) {s : Regions}
    (h : Built P s) : Built Q s := by
  induction h with
  | empty => exact .empty
  | track v _ ih => exact ih.track v
  | find _ hok ih => exact ih.find hok
  | redefine _ hok ih => exact ih.redefine hok
  | union _ hok ih => exact ih.union hok
  | mark _ hsite hok ih => exact ih.mark (hPQ _ hsite) hok
  | join _ _ hok ih ih' => exact ih.join ih' hok

-- ============================================================================
-- Operations are made of changes
-- ============================================================================

namespace Regions

variable {P : Site → Prop} {s t : Regions}

theorem Built.foldl_track (h : s.Built P) (vs : List Name) : (vs.foldl Regions.track s).Built P := by
  induction vs generalizing s with
  | nil => exact h
  | cons v vs ih => exact ih (h.track v)

/-- Uniting names is a change: a union, or none for fewer than two. -/
theorem Built.unite (h : s.Built P) {vs : List Name} (ht : s.unite vs = .ok t) : t.Built P := by
  rw [Regions.unite.eq_def] at ht
  split at ht
  · obtain rfl := Except.ok.inj ht
    exact h
  · obtain rfl := Except.ok.inj ht
    exact h
  · obtain ⟨⟨top, u⟩, hu, hr⟩ := ok_of_bind ht
    obtain rfl := Except.ok.inj hr
    exact h.union hu

/-- The state before the first block is built without marking a site. -/
theorem built_entry {f : Func} {initial : Regions} (h : entry f = .ok initial) :
    initial.Built P :=
  (Built.empty.foldl_track _).unite h

/-- A definition redefines a name and unites it with its source. -/
theorem Built.define (h : s.Built P) {dest : Option Value} {source : List Name}
    (ht : s.define dest source = .ok t) : t.Built P := by
  cases dest with
  | none =>
    obtain rfl := Except.ok.inj ht
    exact h
  | some d =>
    by_cases hd : d.sendable = true
    · rw [Regions.define, if_pos hd] at ht
      obtain rfl := Except.ok.inj ht
      exact h
    · rw [define_eq s hd] at ht
      obtain ⟨u, hu, hr⟩ := ok_of_bind ht
      have hbuilt : u.Built P := by
        split at hu
        · obtain rfl := Except.ok.inj hu
          exact h
        · exact h.redefine hu
      split at hr
      · obtain rfl := Except.ok.inj hr
        exact hbuilt
      · obtain ⟨⟨top, w⟩, hw, hr⟩ := ok_of_bind hr
        obtain rfl := Except.ok.inj hr
        exact hbuilt.union hw

theorem Built.build (h : s.Built P) {dest : Option Value} {parts : List Value}
    (ht : s.build dest parts = .ok t) : t.Built P := by
  obtain ⟨u, hu, hr⟩ := ok_of_bind ht
  exact (h.unite hu).define hr

/-- A transfer marks nothing but the site of its call. -/
theorem Built.transfer (h : s.Built P) {f : Func} {call : Call} {kind : Crossing} {point : Point}
    (hmakes : f.Makes P kind point (.call call)) {vs : List Name} (hvs : Drawn call.operands vs)
    (ht : s.transfer f call kind point vs = .ok t) : t.Built P := by
  cases vs with
  | nil =>
    obtain rfl := Except.ok.inj ht
    exact h
  | cons v vs =>
    rw [Regions.transfer] at ht
    split at ht
    · rename_i hkind
      obtain ⟨types, htypes, hr⟩ := ok_of_bind ht
      exact h.mark (hmakes call rfl hkind (v :: vs) types (by simp) hvs htypes) hr
    · obtain rfl := Except.ok.inj ht
      exact h

/-- Every operation changes a state by changes that build one. -/
theorem Built.apply (h : s.Built P) {f : Func} {kind : Crossing} {point : Point} {op : Op}
    (hmakes : f.Makes P kind point op) (ht : s.apply f kind point op = .ok t) : t.Built P := by
  cases op with
  | init dest args loc => exact h.build ht
  | load dest base field loc => exact h.build ht
  | copy dest src loc => exact h.build ht
  | store base field value loc => exact h.build ht
  | closure dest captures loc => exact h.build ht
  | call call =>
    obtain ⟨u, hu, hr⟩ := ok_of_bind ht
    exact (h.build hu).transfer hmakes (drawn_tracked s call.operands) hr
  | use value kind loc =>
    obtain rfl := Except.ok.inj ht
    exact h

/-- Joining built states gives a built one. -/
theorem Built.joinAll (h : s.Built P) {ts : List Regions} (hts : ∀ t ∈ ts, t.Built P)
    {u : Regions} (hu : s.joinAll ts = .ok u) : u.Built P := by
  induction ts generalizing s with
  | nil =>
    obtain rfl := Except.ok.inj hu
    exact h
  | cons t ts ih =>
    obtain ⟨w, hw, hr⟩ := ok_of_bind hu
    exact ih (h.join (hts t (by simp)) hw) (fun x hx => hts x (List.mem_cons_of_mem _ hx)) hr

end Regions

-- ============================================================================
-- An analysis goes through built states
-- ============================================================================

namespace Func

variable {σ : Type} {f : Func} {c : Classifier σ} {kinds : Op → Crossing} {P : Site → Prop}
  {initial s : Regions} {p : Progress σ}

theorem passOp_built (hs : s.Built P) {memory : σ} {point : Point} {op : Op}
    (hmakes : f.Makes P (c.crossing memory f op).1 point op) {r : Passage σ}
    (hr : f.passOp c false memory s point op = .ok r) : r.regions.Built P := by
  obtain ⟨x, hx, hr⟩ := ok_of_bind hr
  -- nothing is watched for, so only the operation changes the state
  rw [Regions.watchedAccesses, if_neg (by decide)] at hx
  obtain rfl := Except.ok.inj hx
  obtain ⟨t, ht, hr⟩ := ok_of_bind hr
  obtain rfl := Except.ok.inj hr
  exact hs.apply hmakes ht

/-- Going through operations keeps a state built; the induction is on the operations. -/
theorem passOps_built (hs : s.Built P) (hc : c.Answers f kinds) {index : Int} {label : Name}
    {ops : List Op} {i : Int} {memory : σ} (hmakes : ∀ (j : Nat) (op : Op), ops[j]? = some op →
      f.Makes P (kinds op) ⟨index, i + j, label⟩ op) {r : Passage σ}
    (hr : f.passOps c false index label i memory s ops = .ok r) : r.regions.Built P := by
  induction ops generalizing i memory s r with
  | nil =>
    obtain rfl := Except.ok.inj hr
    exact hs
  | cons op rest ih =>
    obtain ⟨q, hq, hr⟩ := ok_of_bind hr
    obtain ⟨q', hq', hr⟩ := ok_of_bind hr
    obtain rfl := Except.ok.inj hr
    have hmake : f.Makes P (c.crossing memory f op).1 ⟨index, i, label⟩ op := by
      rw [hc memory op]
      have hfirst := hmakes 0 op rfl
      rwa [Int.natCast_zero, Int.add_zero] at hfirst
    have hrest : ∀ (j : Nat) (op : Op), rest[j]? = some op →
        f.Makes P (kinds op) ⟨index, i + 1 + j, label⟩ op := by
      intro j op' hop'
      have heq : i + 1 + (j : Int) = i + ((j + 1 : Nat) : Int) := by omega
      rw [heq]
      exact hmakes (j + 1) op' hop'
    have hbuilt := ih (passOp_built hs hmake hq) hrest hq'
    exact hbuilt

/-- Going through a block keeps a state built. -/
theorem passBlock_built (hs : s.Built P) (hc : c.Answers f kinds) {index : Int} {b : Block}
    (hmakes : f.BlockMakes P kinds index b) {memory : σ} {r : Passage σ}
    (hr : f.passBlock c false memory s index b = .ok r) : r.regions.Built P := by
  obtain ⟨q, hq, hr⟩ := ok_of_bind hr
  have hops : ∀ (j : Nat) (op : Op), b.ops[j]? = some op →
      f.Makes P (kinds op) ⟨index, 0 + j, b.name⟩ op := by
    intro j op hop
    rw [Int.zero_add]
    exact hmakes j op hop
  have hbuilt := passOps_built hs hc hops hq
  split at hr
  · obtain rfl := Except.ok.inj hr
    exact hbuilt
  · obtain rfl := Except.ok.inj hr
    exact hbuilt

/-- All entries and exits that are set are built states. -/
structure AllBuilt (P : Site → Prop) (p : Progress σ) : Prop where
  entries : ∀ {n s}, p.entries.get? n = some s → s.Built P
  exits : ∀ {n e}, p.exits.get? n = some e → e.Built P

theorem AllBuilt.insert_entry (h : AllBuilt P p) (hs : s.Built P) (n : Name) (queue : List Name) :
    AllBuilt P { p with entries := p.entries.insert n s, queue } := by
  refine ⟨?_, h.exits⟩
  intro m x hx
  rw [Table.get?_insert] at hx
  split at hx
  · obtain rfl := Option.some.inj hx
    exact hs
  · exact h.entries hx

/-- What flows into a block from built exits is built. -/
theorem AllBuilt.entryRegions (h : AllBuilt P p) (hinitial : initial.Built P) {n : Name}
    (hs : f.entryRegions initial p.exits n = .ok (some s)) : s.Built P := by
  have hin : ∀ x ∈ f.incoming initial p.exits n, x.Built P := by
    intro x hx
    rcases (mem_incoming f initial p.exits n x).1 hx with ⟨-, rfl⟩ | ⟨q, -, he⟩
    · exact hinitial
    · exact h.exits he
  rw [Func.entryRegions] at hs
  split at hs
  · cases hs
  · rename_i first rest hlist
    rw [hlist] at hin
    obtain ⟨u, hu, hr⟩ := ok_of_bind hs
    obtain rfl := Option.some.inj (Except.ok.inj hr)
    exact (hin first (by simp)).joinAll (fun x hx => hin x (List.mem_cons_of_mem _ hx)) hu

theorem AllBuilt.propagate (h : AllBuilt P p) (hinitial : initial.Built P) {pending : List Name}
    {p' : Progress σ} (hok : f.propagate initial p pending = .ok p') : AllBuilt P p' := by
  induction pending generalizing p with
  | nil =>
    obtain rfl := Except.ok.inj hok
    exact h
  | cons n rest ih =>
    obtain ⟨p₁, hrefresh, hrest⟩ := ok_of_propagate hok
    rcases ok_of_refresh hrefresh with rfl | ⟨s, hentry, rfl⟩
    · exact ih h hrest
    · exact ih (h.insert_entry (h.entryRegions hinitial hentry) n _) hrest

/-- One evaluation keeps all entries and exits built. -/
theorem AllBuilt.step (h : AllBuilt P p) (hreg : f.Regular c kinds P initial)
    (hinitial : initial.Built P) {q : Progress σ} (hstep : f.Step c initial p q) :
    AllBuilt P q := by
  obtain ⟨n, -, hok⟩ := hstep
  rw [evaluate] at hok
  split at hok
  · rename_i b i s hb hi hs
    -- the block is the one that the makers of sites are known for
    obtain ⟨i', hat⟩ := exists_at hb
    obtain rfl := Option.some.inj (hi.symm.trans hat.blockIndex?)
    obtain ⟨r, hr, hok⟩ := ok_of_bind hok
    have hexit :=
      passBlock_built (h.entries hs) hreg.answers (hreg.makes hat) (ok_of_orUntracked hr)
    have hset : AllBuilt P (⟨p.entries, p.exits.insert n r.regions, p.queue.erase n,
        p.evaluations + 1, r.memory⟩ : Progress σ) := by
      refine ⟨h.entries, ?_⟩
      intro m e he
      rw [Table.get?_insert] at he
      split at he
      · obtain rfl := Option.some.inj he
        exact hexit
      · exact h.exits he
    exact hset.propagate hinitial hok
  · cases hok

/-- A run keeps all entries and exits built. -/
theorem AllBuilt.run (h : AllBuilt P p) (hreg : f.Regular c kinds P initial)
    (hinitial : initial.Built P) {q : Progress σ} (hrun : f.Run c initial p q) : AllBuilt P q := by
  induction hrun with
  | refl => exact h
  | tail _ hstep ih => exact ih.step hreg hinitial hstep

theorem allBuilt_start (hinitial : initial.Built P) (memory : σ) :
    AllBuilt P (f.startProgress initial memory) := by
  refine ⟨?_, fun he => nomatch he⟩
  intro n s hs
  rw [startProgress, Table.get?_insert] at hs
  split at hs
  · obtain rfl := Option.some.inj hs
    exact hinitial
  · cases hs

end Func

end Sendability
