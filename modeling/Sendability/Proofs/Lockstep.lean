/-
  States that differ in the lengths of paths go the same way.

  Two attempts are in `Lockstep` when they fail at the same name or succeed with
  results that are related. Here the results are states that are alike
  (`Regions.Kin`), next to one answer (`Answered`). Each change of regions, each
  join and each operation keeps states alike; so does running over a block,
  whether accesses are watched for or not: `Func.passBlock_alike`.
-/

import Sendability.Proofs.Safety
import Sendability.Proofs.UnionOrder

namespace Sendability

-- ============================================================================
-- Attempts
-- ============================================================================

section Attempts

variable {α β γ δ : Type}

/-- Two attempts fail at the same name, or succeed with related results. -/
inductive Lockstep (R : α → β → Prop) : Except Untracked α → Except Untracked β → Prop
  | error (e : Untracked) : Lockstep R (.error e) (.error e)
  | ok {a : α} {b : β} (h : R a b) : Lockstep R (.ok a) (.ok b)

/-- One answer, next to states that are related. -/
inductive Answered (R : β → β → Prop) : α × β → α × β → Prop
  | intro (a : α) {s t : β} (h : R s t) : Answered R (a, s) (a, t)

namespace Lockstep

variable {R : α → β → Prop} {S : γ → δ → Prop} {x : Except Untracked α} {y : Except Untracked β}

/-- Attempts in lockstep go on in lockstep. -/
theorem bind {f : α → Except Untracked γ} {g : β → Except Untracked δ} (h : Lockstep R x y)
    (hfg : ∀ a b, R a b → Lockstep S (f a) (g b)) : Lockstep S (x >>= f) (y >>= g) := by
  cases h with
  | error e => exact .error e
  | ok h => exact hfg _ _ h

theorem map {f : α → γ} {g : β → δ} (h : Lockstep R x y) (hfg : ∀ a b, R a b → S (f a) (g b)) :
    Lockstep S (x.map f) (y.map g) := by
  cases h with
  | error e => exact .error e
  | ok h => exact .ok (hfg _ _ h)

/-- The results of attempts in lockstep that both succeed are related. -/
theorem of_ok {a : α} {b : β} (h : Lockstep R x y) (hx : x = .ok a) (hy : y = .ok b) : R a b := by
  subst hx
  subst hy
  cases h with
  | ok h => exact h

end Lockstep

end Attempts

-- ============================================================================
-- Partitions
-- ============================================================================

namespace Partition

variable {p q p' q' : Partition} {v : Name}

/-- Well-formed partitions that differ in the lengths of paths only. -/
structure Kin (p q : Partition) : Prop where
  wellFormed : p.WellFormed
  alike : Alike p q

theorem Kin.refl (hp : p.WellFormed) : Kin p p := ⟨hp, Alike.refl p⟩

/-- Looking up a name gives the same representative, and partitions that are kin. -/
theorem find_lockstep (h : Kin p q) (v : Name) :
    Lockstep (Answered Kin) (p.find v) (q.find v) := by
  rcases h.alike.find_cases h.wellFormed v with ⟨r, p', q', hf, hf', hp', halike⟩ | ⟨hf, hf'⟩
  · rw [hf, hf']
    exact .ok (.intro r ⟨hp', halike⟩)
  · rw [hf, hf']
    exact .error ⟨v⟩

/-- The members of a region are found in one order, whatever the paths are. -/
theorem membersOf_lockstep (h : Kin p q) (r : Name) (vs : List Name) :
    Lockstep (Answered Kin) (p.membersOf r vs) (q.membersOf r vs) := by
  induction vs generalizing p q with
  | nil => exact .ok (.intro [] h)
  | cons v vs ih =>
    rw [membersOf, membersOf]
    rcases h.alike.find_cases h.wellFormed v with ⟨z, p', q', hf, hf', hp', halike⟩ | ⟨hf, hf'⟩
    · simp only [hf, hf']
      have hrest := ih (p := p') (q := q') ⟨hp', halike⟩
      generalize p'.membersOf r vs = x at hrest
      generalize q'.membersOf r vs = y at hrest
      cases hrest with
      | error e => exact .error e
      | ok hrest =>
        cases hrest with
        | intro ms hkin => exact .ok (.intro _ hkin)
    · simp only [hf, hf']
      exact .error ⟨v⟩

theorem kin_add (h : Kin p q) (v : Name) : Kin (p.add v) (q.add v) := by
  refine ⟨wellFormed_add h.wellFormed v, ?_⟩
  by_cases hv : v ∈ p.names
  · have hc : p.contains v = true := (Table.contains_iff p.parents v).2 hv
    rw [add, add, h.alike.contains, if_pos hc, if_pos hc]
    exact h.alike
  · have hc : ¬ p.contains v = true := fun hc => hv ((Table.contains_iff p.parents v).1 hc)
    have hv' : v ∉ q.names := h.alike.names ▸ hv
    have hkeys : q.parents.keys = p.parents.keys := h.alike.names
    refine ⟨?_, ?_, ?_⟩
    · rw [add, add, h.alike.contains, if_neg hc, if_neg hc, names, names, Table.keys_insert,
        Table.keys_insert, hkeys]
    · rw [add, add, h.alike.contains, if_neg hc, if_neg hc, h.alike.weights]
    · intro x y
      rw [rep_add (h.alike.wellFormed h.wellFormed) hv', rep_add h.wellFormed hv, h.alike.rep]

/-- A union fails at the first name that is not tracked. -/
theorem union_untracked (hp : p.WellFormed) {first w : Name} {others : List Name}
    (hw : (first :: others).find? (fun v => !p.contains v) = some w) :
    p.union first others = .error ⟨w⟩ := by
  have hfail := findAll_untracked hp hw
  rw [findAll] at hfail
  rw [union]
  cases hf : p.find first with
  | error e =>
    rw [hf] at hfail
    cases hfail
    rfl
  | ok x =>
    simp only [hf] at hfail
    simp only [bind, Except.bind]
    cases hfa : x.2.findAll others with
    | error e =>
      rw [hfa] at hfail
      cases hfail
      rfl
    | ok y =>
      rw [hfa] at hfail
      cases hfail

/-- The representative of a union depends on weights and names, not on paths. -/
theorem union_lockstep (h : Kin p q) (first : Name) (others : List Name) :
    Lockstep (Answered Kin) (p.union first others) (q.union first others) := by
  rcases tracked_or_untracked p (first :: others) with hvs | ⟨w, hw⟩
  · obtain ⟨top, p', q', hok, hok', -, hp', halike⟩ :=
      union_alike h.wellFormed h.alike hvs fun _ => Iff.rfl
    rw [hok, hok']
    exact .ok (.intro top ⟨hp', halike⟩)
  · have hw' : (first :: others).find? (fun v => !q.contains v) = some w := by
      simp only [h.alike.contains]
      exact hw
    rw [union_untracked h.wellFormed hw, union_untracked (h.alike.wellFormed h.wellFormed) hw']
    exact .error ⟨w⟩

/-- Two partitions that are kin come to partitions that are kin when a name is taken
    out, if the same is left of its region and the weights agree. -/
theorem kin_of_detach (h : Kin p q) (hv : v ∈ p.names) {d : Detached}
    (hok : p.detach v = .ok (d, p')) (hok' : q.detach v = .ok (d, q'))
    (hweights : q'.weights = p'.weights) : Kin p' q' := by
  obtain ⟨d₁, p₁, h₁, hp₁, hparted⟩ := detach_spec h.wellFormed hv
  obtain ⟨rfl, rfl⟩ := Prod.mk.inj (Except.ok.inj (hok.symm.trans h₁))
  obtain ⟨d₂, q₂, h₂, -, hparted'⟩ :=
    detach_spec (h.alike.wellFormed h.wellFormed) (h.alike.names ▸ hv)
  obtain ⟨rfl, rfl⟩ := Prod.mk.inj (Except.ok.inj (hok'.symm.trans h₂))
  refine ⟨hp₁, ?_, hweights, ?_⟩
  · rw [hparted'.names, hparted.names, h.alike.names]
  · intro x y
    rw [hparted'.rep, hparted.rep, h.alike.rep, h.alike.rep]

/-- Taking a name out leaves the same of its region. -/
theorem detach_lockstep (h : Kin p q) (v : Name) :
    Lockstep (Answered Kin) (p.detach v) (q.detach v) := by
  by_cases hv : v ∈ p.names
  · obtain ⟨s, t, old, rest, hf, hm, ht, -, -, -, hcases⟩ := detach_eq h.wellFormed hv
    obtain ⟨s', t', old', rest', hf', hm', ht', -, -, -, hcases'⟩ :=
      detach_eq (h.alike.wellFormed h.wellFormed) (h.alike.names ▸ hv)
    -- both find the same others of the region
    obtain ⟨_, hfound⟩ := (find_lockstep h v).of_ok hf hf'
    rw [hfound.alike.names] at hm'
    obtain ⟨_, hlisted⟩ := (membersOf_lockstep hfound old _).of_ok hm hm'
    have hweights : t'.weights = t.weights := hlisted.alike.weights
    rcases hcases with ⟨rfl, hok⟩ | ⟨new, hnew, hchoice, hok⟩
    · rcases hcases' with ⟨-, hok'⟩ | ⟨new', hnew', -⟩
      · rw [hok, hok']
        refine .ok (.intro _ (kin_of_detach h hv hok hok' ?_))
        rw [hweights]
      · cases hnew'
    · rcases hcases' with ⟨rfl, -⟩ | ⟨new', -, hchoice', hok'⟩
      · cases hnew
      · obtain ⟨a, others, rfl⟩ := List.exists_cons_of_ne_nil (List.ne_nil_of_mem hnew)
        obtain rfl : new' = new := (hchoice' a others rfl).trans (hchoice a others rfl).symm
        rw [hok, hok']
        refine .ok (.intro _ (kin_of_detach h hv hok hok' ?_))
        rw [hweights]
  · have hv' : v ∉ q.names := h.alike.names ▸ hv
    rw [detach, detach, find_untracked hv, find_untracked hv']
    exact .error ⟨v⟩

/-- Both the partition that is imposed on and the one that is imposed stay alike. -/
theorem imposeFrom_lockstep (h : Kin p q) (h' : Kin p' q') (vs : List Name) :
    Lockstep (fun x y => Kin x.1 y.1 ∧ Kin x.2 y.2) (p.imposeFrom p' vs) (q.imposeFrom q' vs) := by
  induction vs generalizing p q p' q' with
  | nil => exact .ok ⟨h, h'⟩
  | cons v vs ih =>
    refine (find_lockstep h' v).bind ?_
    rintro _ _ ⟨r, hfound⟩
    by_cases hr : r = v
    · simp only [hr, if_true]
      exact ih h hfound
    · simp only [hr, if_false]
      refine (union_lockstep h v [r]).bind ?_
      rintro _ _ ⟨top, hunited⟩
      exact ih hunited hfound

end Partition

-- ============================================================================
-- States
-- ============================================================================

namespace Regions

variable {s t s' t' : Regions}

/-- States with well-formed partitions that differ in the lengths of paths only. -/
structure Kin (s t : Regions) : Prop where
  wellFormed : s.partition.WellFormed
  alike : Alike s t

theorem Kin.refl (hs : s.partition.WellFormed) : Kin s s := ⟨hs, Alike.refl s⟩

theorem Kin.partition (h : Kin s t) : s.partition.Kin t.partition :=
  ⟨h.wellFormed, h.alike.partition⟩

theorem kin_of_partition {p q : Partition} (h : p.Kin q) (records : Table Name Record) :
    Kin ⟨p, records⟩ ⟨q, records⟩ :=
  ⟨h.wellFormed, h.alike, rfl⟩

/-- Looking up a name keeps states kin. -/
theorem find_lockstep (h : Kin s t) (v : Name) :
    Lockstep (Answered Kin) (s.find v) (t.find v) := by
  rcases h.alike.partition.find_cases h.wellFormed v with ⟨r, p, q, hf, hf', hp, hpq⟩ | ⟨hf, hf'⟩
  · simp only [find, hf, hf', h.alike.records]
    exact .ok (.intro r (kin_of_partition ⟨hp, hpq⟩ s.records))
  · simp only [find, hf, hf']
    exact .error ⟨v⟩

-- ============================================================================
-- Changes
-- ============================================================================

theorem kin_track (h : Kin s t) (v : Name) : Kin (s.track v) (t.track v) := by
  rw [track, track, h.alike.records]
  exact kin_of_partition (Partition.kin_add h.partition v) s.records

/-- A name that is defined anew leaves states kin. -/
theorem redefine_lockstep (h : Kin s t) (v : Name) :
    Lockstep Kin (s.redefine v) (t.redefine v) := by
  rw [redefine, redefine, h.alike.isTracked, h.alike.records]
  split
  · refine (Partition.detach_lockstep h.partition v).bind ?_
    rintro _ _ ⟨d, hkin⟩
    simp only
    split
    · exact .ok (kin_of_partition hkin _)
    · exact .ok (kin_of_partition hkin _)
  · exact .ok (kin_track h v)

/-- Records are merged in one order, since the representatives are the same. -/
theorem union_lockstep (h : Kin s t) (first : Name) (others : List Name) :
    Lockstep (Answered Kin) (s.union first others) (t.union first others) := by
  rcases Partition.tracked_or_untracked s.partition (first :: others) with hvs | ⟨w, hw⟩
  · obtain ⟨top, s', t', hok, hok', -, hs', halike⟩ :=
      union_alike h.wellFormed h.alike hvs fun _ => Iff.rfl
    rw [hok, hok']
    exact .ok (.intro top ⟨hs', halike⟩)
  · have hw' : (first :: others).find? (fun v => !t.partition.contains v) = some w := by
      simp only [h.alike.partition.contains]
      exact hw
    rw [union_untracked h.wellFormed hw,
      union_untracked (h.alike.partition.wellFormed h.wellFormed) hw']
    exact .error ⟨w⟩

theorem unite_lockstep (h : Kin s t) (vs : List Name) : Lockstep Kin (s.unite vs) (t.unite vs) := by
  rw [unite.eq_def, unite.eq_def]
  split
  · exact .ok h
  · exact .ok h
  · refine (union_lockstep h _ _).bind ?_
    rintro _ _ ⟨top, hkin⟩
    exact .ok hkin

theorem kin_put (h : Kin s t) (r : Name) (rec : Record) : Kin (s.put r rec) (t.put r rec) := by
  rw [put, put, h.alike.records]
  exact kin_of_partition h.partition _

/-- A site is marked in one record. -/
theorem mark_lockstep (h : Kin s t) (v : Name) (site : Site) :
    Lockstep Kin (s.mark v site) (t.mark v site) := by
  refine (find_lockstep h v).bind ?_
  rintro _ _ ⟨r, hkin⟩
  simp only [hkin.alike.recordAt]
  exact .ok (kin_put hkin r _)

-- ============================================================================
-- Joins
-- ============================================================================

/-- Records are carried over in one order. -/
theorem carryRecords_lockstep (h : Kin s t) (l : List (Name × Record)) :
    Lockstep Kin (s.carryRecords l) (t.carryRecords l) := by
  induction l generalizing s t with
  | nil => exact .ok h
  | cons e l ih =>
    obtain ⟨v, rec⟩ := e
    rw [carryRecords, carryRecords]
    split
    · refine (find_lockstep h v).bind ?_
      rintro _ _ ⟨r, hkin⟩
      simp only [hkin.alike.recordAt]
      exact ih (kin_put hkin r _)
    · exact ih h

/-- A join and both of its operands stay alike. -/
theorem joinFrom_lockstep (h : Kin s t) (h' : Kin s' t') :
    Lockstep (fun x y => Kin x.1 y.1 ∧ Kin x.2.1 y.2.1 ∧ Kin x.2.2 y.2.2)
      (s.joinFrom s') (t.joinFrom t') := by
  have hnames : t.names = s.names := h.alike.partition.names
  have hnames' : t'.names = s'.names := h'.alike.partition.names
  have hbase := (Partition.foldl_add_spec Partition.wellFormed_empty (s.names ++ s'.names)).1
  rw [joinFrom, joinFrom, hnames, hnames', h.alike.records, h'.alike.records]
  refine (Partition.imposeFrom_lockstep (Partition.Kin.refl hbase) h.partition s.names).bind ?_
  rintro ⟨p, left⟩ ⟨q, left'⟩ ⟨hpq, hleft⟩
  refine (Partition.imposeFrom_lockstep hpq h'.partition s'.names).bind ?_
  rintro ⟨p, right⟩ ⟨q, right'⟩ ⟨hpq, hright⟩
  refine (carryRecords_lockstep (kin_of_partition hpq {}) _).bind ?_
  intro u w hkin
  exact .ok ⟨hkin, kin_of_partition hleft s.records, kin_of_partition hright s'.records⟩

-- ============================================================================
-- Operations
-- ============================================================================

theorem Alike.tracked (h : Alike s t) (vs : List Value) : t.tracked vs = s.tracked vs := by
  simp only [Regions.tracked, h.isTracked]

/-- Definitions keep states kin. -/
theorem define_lockstep (h : Kin s t) (dest : Option Value) (source : List Name) :
    Lockstep Kin (s.define dest source) (t.define dest source) := by
  cases dest with
  | none => exact .ok h
  | some d =>
    by_cases hd : d.sendable = true
    · simp only [define, hd, if_true]
      exact .ok h
    · have hstart : Lockstep Kin (if d.name ∈ source then .ok s else s.redefine d.name)
          (if d.name ∈ source then .ok t else t.redefine d.name) := by
        split
        · exact .ok h
        · exact redefine_lockstep h d.name
      rw [define_eq s hd, define_eq t hd]
      refine hstart.bind ?_
      intro u w hkin
      split
      · exact .ok hkin
      · refine (union_lockstep hkin _ _).bind ?_
        rintro _ _ ⟨top, hkin⟩
        exact .ok hkin

theorem build_lockstep (h : Kin s t) (dest : Option Value) (parts : List Value) :
    Lockstep Kin (s.build dest parts) (t.build dest parts) := by
  rw [build, build, h.alike.tracked]
  refine (unite_lockstep h _).bind ?_
  intro u w hkin
  exact define_lockstep hkin dest _

/-- A transfer marks the same site in both states. -/
theorem transfer_lockstep (h : Kin s t) (f : Func) (c : Call) (kind : Crossing) (point : Point)
    (source : List Name) :
    Lockstep Kin (s.transfer f c kind point source) (t.transfer f c kind point source) := by
  cases source with
  | nil => exact .ok h
  | cons v vs =>
    rw [transfer, transfer]
    split
    · cases typesAmong c.operands (v :: vs) with
      | error e => exact .error e
      | ok types => exact mark_lockstep h v _
    · exact .ok h

/-- Every operation keeps states kin, and fails in both or in none. -/
theorem apply_lockstep (h : Kin s t) (f : Func) (kind : Crossing) (point : Point) (op : Op) :
    Lockstep Kin (s.apply f kind point op) (t.apply f kind point op) := by
  cases op with
  | init dest args loc => exact build_lockstep h (some dest) args
  | load dest base field loc => exact build_lockstep h (some dest) [base]
  | copy dest src loc => exact build_lockstep h (some dest) [src]
  | store base field value loc => exact build_lockstep h none [base, value]
  | closure dest captures loc => exact build_lockstep h (some dest) captures
  | use value kind loc => exact .ok h
  | call c =>
    rw [apply, apply, h.alike.tracked]
    refine (build_lockstep h c.dest c.operands).bind ?_
    intro u w hkin
    exact transfer_lockstep hkin f c kind point _

end Regions

-- ============================================================================
-- Blocks
-- ============================================================================

namespace Func

variable {σ : Type} {f : Func} {c : Classifier σ} {s t : Regions}

/-- What the classifier remembers after an operation does not depend on the state. -/
theorem passOp_memory {watch : Bool} {memory : σ} {point : Point} {op : Op} {r : Passage σ}
    (h : f.passOp c watch memory s point op = .ok r) : r.memory = (c.crossing memory f op).2 := by
  obtain ⟨⟨l, u⟩, -, h⟩ := ok_of_bind h
  obtain ⟨w, -, h⟩ := ok_of_bind h
  exact (congrArg Passage.memory (Except.ok.inj h)).symm

/-- An operation takes states that are alike to states that are alike, whether its
    accesses are watched for or not. The classifier remembers the same in both
    cases, or does not go by what it remembers. -/
theorem passOp_alike (hs : s.Sound) (h : Regions.Alike s t) (watch watch' : Bool)
    {memory memory' : σ} (hm : memory' = memory ∨ c.Steady) (point : Point) (op : Op) :
    ∃ r r', f.passOp c watch memory s point op = .ok r ∧
      f.passOp c watch' memory' t point op = .ok r' ∧ (memory' = memory → r'.memory = r.memory) ∧
      r.regions.Sound ∧ Regions.Alike r.regions r'.regions := by
  have ht := h.wellFormed hs
  obtain ⟨r, hr, hsound⟩ := passOp_sound (f := f) (c := c) hs watch memory point op
  obtain ⟨r', hr', -⟩ := passOp_sound (f := f) (c := c) ht watch' memory' point op
  obtain ⟨s₁, hs₁, happly⟩ := Regions.passOp_regions hs f c watch memory point op
  obtain ⟨t₁, ht₁, happly'⟩ := Regions.passOp_regions ht f c watch' memory' point op
  have hkin : Regions.Kin s₁ t₁ :=
    ⟨hs₁.partition.wellFormed hs.partition, hs₁.symm.trans (h.trans ht₁)⟩
  have hkind : (c.crossing memory' f op).1 = (c.crossing memory f op).1 := by
    rcases hm with rfl | hc
    · rfl
    · exact hc.answers f memory memory' op
  rw [hr] at happly
  rw [hr', hkind] at happly'
  have hafter := (Regions.apply_lockstep hkin f _ point op).of_ok happly.symm happly'.symm
  refine ⟨r, r', hr, hr', ?_, hsound, hafter.alike⟩
  rintro rfl
  rw [passOp_memory hr, passOp_memory hr']

/-- Going through operations keeps sound states alike, watched or not; the induction
    is on the operations. -/
theorem passOps_alike (hs : s.Sound) (h : Regions.Alike s t) (watch watch' : Bool)
    {memory memory' : σ} (hm : memory' = memory ∨ c.Steady) (index i : Int) (label : Name)
    (ops : List Op) :
    ∃ r r', f.passOps c watch index label i memory s ops = .ok r ∧
      f.passOps c watch' index label i memory' t ops = .ok r' ∧
      (memory' = memory → r'.memory = r.memory) ∧ r.regions.Sound ∧
      Regions.Alike r.regions r'.regions := by
  induction ops generalizing i memory memory' s t with
  | nil => exact ⟨_, _, rfl, rfl, id, hs, h⟩
  | cons op rest ih =>
    obtain ⟨p, p', hp, hp', hmemory, hsound, halike⟩ :=
      passOp_alike (f := f) hs h watch watch' hm ⟨index, i, label⟩ op
    obtain ⟨q, q', hq, hq', hmemory', hlast⟩ := ih hsound halike (hm.imp_left hmemory) (i + 1)
    refine ⟨{ q with accesses := p.accesses ++ q.accesses },
      { q' with accesses := p'.accesses ++ q'.accesses }, ?_, ?_, fun hm => hmemory' (hmemory hm),
      hlast⟩
    · simp only [passOps, hp, hq, bind, Except.bind, pure, Except.pure]
    · simp only [passOps, hp', hq', bind, Except.bind, pure, Except.pure]

/-- Running over a block takes states that are alike to states that are alike,
    whether its accesses are watched for or not. -/
theorem passBlock_alike (hs : s.Sound) (h : Regions.Alike s t) (watch watch' : Bool)
    {memory memory' : σ} (hm : memory' = memory ∨ c.Steady) (index : Int) (b : Block) :
    ∃ r r', f.passBlock c watch memory s index b = .ok r ∧
      f.passBlock c watch' memory' t index b = .ok r' ∧
      (memory' = memory → r'.memory = r.memory) ∧ Regions.Alike r.regions r'.regions := by
  obtain ⟨p, p', hp, hp', hmemory, hsound, halike⟩ :=
    passOps_alike (f := f) hs h watch watch' hm index 0 b.name b.ops
  cases hterm : b.terminator with
  | none =>
    refine ⟨p, p', ?_, ?_, hmemory, halike⟩
    · simp only [passBlock, hp, hterm, bind, Except.bind, pure, Except.pure]
    · simp only [passBlock, hp', hterm, bind, Except.bind, pure, Except.pure]
  | some term =>
    -- a terminator only uses its operands
    obtain ⟨l, u, hl, hu, -⟩ := Regions.watchedAccesses_spec hsound watch
      ⟨index, b.ops.length, b.name⟩ term.loc term.operands
    obtain ⟨l', u', hl', hu', -⟩ := Regions.watchedAccesses_spec (halike.wellFormed hsound) watch'
      ⟨index, b.ops.length, b.name⟩ term.loc term.operands
    refine ⟨{ p with regions := u, accesses := p.accesses ++ l },
      { p' with regions := u', accesses := p'.accesses ++ l' }, ?_, ?_, hmemory,
      hu.symm.trans (halike.trans hu')⟩
    · simp only [passBlock, hp, hterm, Regions.passTerminator, hl, bind, Except.bind, pure,
        Except.pure]
    · simp only [passBlock, hp', hterm, Regions.passTerminator, hl', bind, Except.bind, pure,
        Except.pure]

end Func

end Sendability
