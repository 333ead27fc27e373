/-
  Running over a block.

  On a well-formed state no look-up of a transfer function fails, and what the
  functions do to the state is what their counterparts do to its view:

    * `apply_spec`      -- `View.apply`
    * `accesses_spec`   -- `View.Exposed`
    * `passBlock_spec`  -- `View.passBlock` and `View.BlockReports`

  The property `P` of sites that is kept has to hold of the sites that the calls
  of the block make (`Func.Makes`). How calls cross may depend on the memory of
  the classifier only if the answer does not (`Classifier.Answers`).
-/

import Sendability.Proofs.Sameness
import Sendability.Proofs.ViewTransfer

namespace Sendability

/-- The classifier answers about the operations of `f` as `kinds` does, whatever
    it remembers. -/
def Classifier.Answers {σ : Type} (c : Classifier σ) (f : Func) (kinds : Op → Crossing) : Prop :=
  ∀ memory op, (c.crossing memory f op).1 = kinds op

/-- The site of a call. -/
def Func.siteOf (f : Func) (c : Call) (kind : Crossing) (point : Point) (values types : List Name) :
    Site where
  point := point
  callee := c.callee
  kind := kind
  values := values
  types := types
  source := f.domain
  target := c.targetDomain kind
  span := c.loc

/-- Names of non-sendable values among some. -/
def Drawn (vs : List Value) (names : List Name) : Prop :=
  names.Nodup ∧ ∀ n ∈ names, ∃ v ∈ vs, v.sendable = false ∧ v.name = n

/-- Every site that an operation can make satisfies `P`. -/
def Func.Makes (f : Func) (P : Site → Prop) (kind : Crossing) (point : Point) (op : Op) : Prop :=
  ∀ c, op = .call c → kind.transfers = true → ∀ values types, values ≠ [] →
    Drawn c.operands values → Regions.typesAmong c.operands values = .ok types →
    P (f.siteOf c kind point values types)

namespace Regions

variable {P : Site → Prop} {s : Regions}

-- ============================================================================
-- Changes
-- ============================================================================

theorem mem_tracked (s : Regions) (vs : List Value) (n : Name) :
    n ∈ s.tracked vs ↔ n ∈ s.view.among vs := by
  simp only [tracked, mem_distinct, List.mem_map, List.mem_filter, Bool.and_eq_true,
    Bool.not_eq_true', View.among, Set.mem_ofPred_eq]
  refine ⟨?_, ?_⟩
  · rintro ⟨v, ⟨hv, hsend, htracked⟩, rfl⟩
    exact ⟨htracked, v, hv, hsend, rfl⟩
  · rintro ⟨htracked, v, hv, hsend, rfl⟩
    exact ⟨v, ⟨hv, hsend, htracked⟩, rfl⟩

/-- The tracked names of some values are drawn from them. -/
theorem drawn_tracked (s : Regions) (vs : List Value) : Drawn vs (s.tracked vs) := by
  refine ⟨nodup_distinct _, ?_⟩
  intro n hn
  exact ((mem_tracked s vs n).1 hn).2

theorem names_of_view {t : Regions} {n : Name} (h : s.view.tracked n → t.view.tracked n)
    (hn : n ∈ s.names) : n ∈ t.names :=
  view_tracked.1 (h (view_tracked.2 hn))

/-- A definition in two steps: the name is put where it belongs, then it joins
    the names it is built from. -/
theorem define_eq (s : Regions) {d : Value} (hd : ¬ d.sendable = true) (source : List Name) :
    s.define (some d) source =
      ((if d.name ∈ source then .ok s else s.redefine d.name) >>= fun t =>
        if source.isEmpty then .ok t else t.union d.name source >>= fun r => .ok r.2) := by
  by_cases hmem : d.name ∈ source
  · simp only [define, hd, hmem, if_true, bind, Except.bind, pure, Except.pure]
    rfl
  · simp only [define, hd, hmem, if_false, bind, Except.bind, pure, Except.pure]
    rfl

/-- A definition from tracked names succeeds, and does to the view what it says. -/
theorem define_spec (hP : Site.Closed P) (hs : s.WellFormed P) (dest : Option Value)
    {source : List Name} (hsource : ∀ n ∈ source, n ∈ s.names) :
    ∃ t, s.define dest source = .ok t ∧ t.WellFormed P ∧
      t.view = s.view.define dest {n | n ∈ source} := by
  cases dest with
  | none => exact ⟨s, rfl, hs, rfl⟩
  | some d =>
    by_cases hd : d.sendable = true
    · exact ⟨s, by simp [define, hd], hs, by simp [View.define, hd]⟩
    · have hfirst : ∃ t, (if d.name ∈ source then .ok s else s.redefine d.name) = .ok t ∧
          t.WellFormed P ∧ d.name ∈ t.names ∧ (∀ n ∈ source, n ∈ t.names) ∧
          t.view = (if d.name ∈ source then s.view else s.view.redefine d.name) := by
        by_cases hmem : d.name ∈ source
        · refine ⟨s, by simp [hmem], hs, hsource _ hmem, hsource, ?_⟩
          rw [if_pos hmem]
        · obtain ⟨t, ht, htwf, hview⟩ := redefine_spec hs d.name
          refine ⟨t, by simp [hmem, ht], htwf, ?_, ?_, by rw [if_neg hmem, hview]⟩
          · rw [← view_tracked, hview]
            exact .inr rfl
          · intro n hn
            refine names_of_view ?_ (hsource n hn)
            rw [hview]
            exact .inl
      obtain ⟨t, ht, htwf, hdt, hsourcet, htview⟩ := hfirst
      have hgoal : s.view.define (some d) {n | n ∈ source} =
          t.view.unite (insert d.name {n | n ∈ source}) := by
        rw [htview]
        by_cases hmem : d.name ∈ source
        · simp [View.define, hd, hmem]
        · simp [View.define, hd, hmem]
      rw [hgoal]
      by_cases hempty : source = []
      · subst hempty
        refine ⟨t, ?_, htwf, ?_⟩
        · rw [define_eq s hd, ht]
          rfl
        · refine (View.unite_eq_self (lawful_view htwf) ?_).symm
          intro a ha b hb
          obtain rfl : a = d.name := by simpa using ha
          obtain rfl : b = d.name := by simpa using hb
          exact (lawful_view htwf).refl (view_tracked.2 hdt)
      · have hall : ∀ v ∈ d.name :: source, v ∈ t.names := by
          intro v hv
          rcases List.mem_cons.1 hv with rfl | hv
          · exact hdt
          · exact hsourcet v hv
        obtain ⟨top, u, hu, huwf, huview⟩ := union_spec hP htwf hall
        refine ⟨u, ?_, huwf, ?_⟩
        · have hne : source.isEmpty = false := by simp [hempty]
          rw [define_eq s hd, ht]
          simp only [bind, Except.bind, hne, hu]
          rfl
        · rw [huview]
          congr 1
          ext n
          simp

theorem build_spec (hP : Site.Closed P) (hs : s.WellFormed P) (dest : Option Value)
    (parts : List Value) :
    ∃ t, s.build dest parts = .ok t ∧ t.WellFormed P ∧ t.view = s.view.build dest parts := by
  have hsource : ∀ n ∈ s.tracked parts, n ∈ s.names := by
    intro n hn
    exact view_tracked.1 ((mem_tracked s parts n).1 hn).1
  obtain ⟨t, ht, htwf, htview⟩ := unite_spec hP hs hsource
  have hsourcet : ∀ n ∈ s.tracked parts, n ∈ t.names := by
    intro n hn
    refine names_of_view ?_ (hsource n hn)
    rw [htview]
    exact id
  obtain ⟨u, hu, huwf, huview⟩ := define_spec hP htwf dest hsourcet
  refine ⟨u, ?_, huwf, ?_⟩
  · simp only [build, ht, hu, bind, Except.bind]
  · have hset : {n | n ∈ s.tracked parts} = s.view.among parts := by
      ext n
      exact mem_tracked s parts n
    rw [huview, htview, hset, View.build]

/-- Every name that was drawn from operands has a type among them. -/
theorem typesAmong_spec {operands : List Value} {names : List Name} (h : Drawn operands names) :
    ∃ types, typesAmong operands names = .ok types := by
  have hone : ∀ n ∈ names, ∃ ty, typeAmong operands n = .ok ty := by
    intro n hn
    obtain ⟨v, hv, -, hvn⟩ := h.2 n hn
    have hfound : (operands.reverse.find? (·.name = n)).isSome := by
      rw [List.find?_isSome]
      exact ⟨v, by simpa using hv, by simpa using hvn⟩
    obtain ⟨w, hw⟩ := Option.isSome_iff_exists.1 hfound
    exact ⟨w.type.name, by rw [typeAmong, hw]⟩
  have hall : ∀ l : List Name, (∀ n ∈ l, ∃ ty, typeAmong operands n = .ok ty) →
      ∃ tys, l.mapM (typeAmong operands) = .ok tys := by
    intro l hl
    induction l with
    | nil => exact ⟨[], rfl⟩
    | cons n l ih =>
      obtain ⟨ty, hty⟩ := hl n (by simp)
      obtain ⟨tys, htys⟩ := ih fun m hm => hl m (List.mem_cons_of_mem _ hm)
      refine ⟨ty :: tys, ?_⟩
      rw [List.mapM_cons, hty, htys]
      rfl
  obtain ⟨tys, htys⟩ := hall names hone
  exact ⟨distinct tys, by simp only [typesAmong, htys, bind, Except.bind, pure, Except.pure]⟩

/-- A call marks one region of the names it hands over; where they are linked
    that is the region of all of them. -/
theorem transfer_spec (hP : Site.Closed P) (hs : s.WellFormed P) {f : Func} {c : Call}
    {kind : Crossing} {point : Point} (hmakes : f.Makes P kind point (.call c))
    {source : List Name} (hsource : ∀ n ∈ source, n ∈ s.names) (hdrawn : Drawn c.operands source)
    (hlinked : ∀ a ∈ source, ∀ b ∈ source, s.view.linked a b) :
    ∃ t, s.transfer f c kind point source = .ok t ∧ t.WellFormed P ∧
      t.view = if kind.transfers then
        s.view.annotate {n | n ∈ source} (View.handing point.key {n | n ∈ source}) else s.view := by
  match source, hsource, hdrawn, hlinked with
  | [], _, _, _ =>
    refine ⟨s, rfl, hs, ?_⟩
    split
    · refine View.eq_of_iff (fun _ => Iff.rfl) (fun _ _ => Iff.rfl) ?_
      intro v k o
      refine ⟨.inl, ?_⟩
      rintro (h | ⟨⟨w, hw, -⟩, -⟩)
      · exact h
      · cases hw
    · rfl
  | v :: vs, hsource, hdrawn, hlinked =>
    by_cases hk : kind.transfers = true
    · obtain ⟨types, htypes⟩ := typesAmong_spec hdrawn
      have hsite := hmakes c rfl hk (v :: vs) types (by simp) hdrawn htypes
      obtain ⟨t, ht, htwf, hview⟩ := mark_spec hP hs (hsource v (by simp)) hsite
      refine ⟨t, ?_, htwf, ?_⟩
      · simp only [transfer, hk, if_true, htypes, bind, Except.bind]
        exact ht
      · rw [hview, if_pos hk]
        have hmeets : ∀ a, s.view.Meets {v} a ↔ s.view.Meets {n | n ∈ v :: vs} a := by
          intro a
          refine ⟨?_, ?_⟩
          · rintro ⟨w, rfl, haw⟩
            exact ⟨w, List.mem_cons_self, haw⟩
          · rintro ⟨w, hw, haw⟩
            exact ⟨v, rfl, (lawful_view hs).trans haw (hlinked w hw v (by simp))⟩
        have hnotes : ∀ k o, (f.siteOf c kind point (v :: vs) types).Notes k o ↔
            View.handing point.key {n | n ∈ v :: vs} k o := by
          intro k o
          exact and_congr_left fun _ => eq_comm
        refine View.eq_of_iff (fun _ => Iff.rfl) (fun _ _ => Iff.rfl) ?_
        intro a k o
        exact or_congr_right (and_congr (hmeets a) (hnotes k o))
    · refine ⟨s, by simp [transfer, hk], hs, by simp [hk]⟩

end Regions

/-- The names that a definition is built from are linked after it. -/
theorem View.linked_build {A : View} (hA : A.Lawful) (dest : Option Value) {parts : List Value}
    {a b : Name} (ha : a ∈ A.among parts) (hb : b ∈ A.among parts) :
    (A.build dest parts).linked a b := by
  have hmeets : ∀ n ∈ A.among parts, A.Meets (A.among parts) n :=
    fun n hn => ⟨n, hn, hA.refl hn.1⟩
  have hunited : (A.unite (A.among parts)).linked a b := .inr ⟨hmeets a ha, hmeets b hb⟩
  cases dest with
  | none => exact hunited
  | some d =>
    simp only [View.build, View.define]
    split
    · exact hunited
    · apply (View.le_unite _ _).linked
      split
      · exact hunited
      · rename_i hd
        refine .inr ⟨?_, ?_, hunited⟩
        · rintro rfl
          exact hd ha
        · rintro rfl
          exact hd hb

/-- An operation succeeds, and does to the view what it says. -/
theorem Regions.apply_spec {P : Site → Prop} {s : Regions} (hP : Site.Closed P)
    (hs : s.WellFormed P) {f : Func} {kind : Crossing} {point : Point} {op : Op}
    (hmakes : f.Makes P kind point op) :
    ∃ t, s.apply f kind point op = .ok t ∧ t.WellFormed P ∧
      t.view = s.view.apply kind point.key op := by
  cases op with
  | init dest args loc => exact build_spec hP hs (some dest) args
  | load dest base field loc => exact build_spec hP hs (some dest) [base]
  | copy dest src loc => exact build_spec hP hs (some dest) [src]
  | store base field value loc => exact build_spec hP hs none [base, value]
  | closure dest captures loc => exact build_spec hP hs (some dest) captures
  | use value kind loc => exact ⟨s, rfl, hs, rfl⟩
  | call c =>
    obtain ⟨t, ht, htwf, htview⟩ := build_spec hP hs c.dest c.operands
    have hset : {n | n ∈ s.tracked c.operands} = s.view.among c.operands := by
      ext n
      exact mem_tracked s c.operands n
    have hsource : ∀ n ∈ s.tracked c.operands, n ∈ t.names := by
      intro n hn
      rw [← view_tracked, htview]
      exact View.tracked_build.2 (.inl ((mem_tracked s c.operands n).1 hn).1)
    have hlinked : ∀ a ∈ s.tracked c.operands, ∀ b ∈ s.tracked c.operands,
        t.view.linked a b := by
      intro a ha b hb
      rw [htview]
      exact View.linked_build (lawful_view hs) _ ((mem_tracked _ _ _).1 ha)
        ((mem_tracked _ _ _).1 hb)
    obtain ⟨u, hu, huwf, huview⟩ :=
      transfer_spec hP htwf hmakes hsource (drawn_tracked s c.operands) hlinked
    refine ⟨u, ?_, huwf, ?_⟩
    · simp only [apply, ht, hu, bind, Except.bind]
    · rw [huview, hset, htview]
      rfl

-- ============================================================================
-- Accesses
-- ============================================================================

/-- Some accesses have one at the point `q`, of `v`, in the way `kind`, with a
    site at the point `k`. -/
def Listed (l : List Access) (q : Point) (v : Name) (kind : AccessKind) (k : Int × Int) : Prop :=
  ∃ a ∈ l, a.point = q ∧ a.value = v ∧ a.kind = kind ∧ ∃ x ∈ a.sites, x.point.key = k

theorem listed_append (l l' : List Access) (q : Point) (v : Name) (kind : AccessKind)
    (k : Int × Int) :
    Listed (l ++ l') q v kind k ↔ Listed l q v kind k ∨ Listed l' q v kind k := by
  simp only [Listed, List.mem_append, or_and_right, exists_or]

/-- Every site of some accesses satisfies `P`. -/
def AllSites (P : Site → Prop) (l : List Access) : Prop := ∀ a ∈ l, ∀ x ∈ a.sites, P x

theorem AllSites.append {P : Site → Prop} {l l' : List Access} (h : AllSites P l)
    (h' : AllSites P l') : AllSites P (l ++ l') := by
  intro a ha
  rcases List.mem_append.1 ha with ha | ha
  · exact h a ha
  · exact h' a ha

namespace Regions

variable {P : Site → Prop} {s : Regions}

/-- The access that an operand is when its region has the record `rec`. -/
def accessOf (point : Point) (loc : Span) (e : Value × AccessKind) (rec : Record) : Access :=
  ⟨point, e.1.name, e.1.type.name, e.2, rec.sites, loc⟩

/-- An operand is an access if its region was transferred. -/
def AccessedBy (s : Regions) (point : Point) (loc : Span) (e : Value × AccessKind) (a : Access) :
    Prop :=
  e.1.sendable = false ∧ ∃ r, s.partition.Rep e.1.name r ∧ (s.recordAt r).transferred = true ∧
    a = accessOf point loc e (s.recordAt r)

theorem Alike.accessedBy {t : Regions} (h : Alike s t) (point : Point) (loc : Span)
    (e : Value × AccessKind) (a : Access) :
    t.AccessedBy point loc e a ↔ s.AccessedBy point loc e a := by
  simp only [AccessedBy, h.partition.rep, h.recordAt]

/-- The accesses of operands are found, and finding them changes paths only. -/
theorem accesses_spec (hs : s.WellFormed P) (point : Point) (loc : Span)
    (ops : List (Value × AccessKind)) :
    ∃ l t, s.accesses point loc ops = .ok (l, t) ∧ Alike s t ∧
      ∀ a, a ∈ l ↔ ∃ e ∈ ops, s.AccessedBy point loc e a := by
  induction ops generalizing s with
  | nil => exact ⟨[], s, rfl, Alike.refl s, by simp⟩
  | cons e ops ih =>
    obtain ⟨v, kind⟩ := e
    -- an operand that is no access leaves the rest as it is
    have hskip : ∀ t, Alike s t → (∀ a, ¬ s.AccessedBy point loc (v, kind) a) →
        s.accesses point loc ((v, kind) :: ops) = t.accesses point loc ops →
        ∃ l u, s.accesses point loc ((v, kind) :: ops) = .ok (l, u) ∧ Alike s u ∧
          ∀ a, a ∈ l ↔ ∃ e ∈ (v, kind) :: ops, s.AccessedBy point loc e a := by
      intro t ht hnot heq
      obtain ⟨l, u, hok, hu, hl⟩ := ih (ht.wellFormed hs)
      refine ⟨l, u, heq.trans hok, ht.trans hu, ?_⟩
      intro a
      rw [hl]
      simp only [ht.accessedBy, List.mem_cons, exists_eq_or_imp]
      exact ⟨.inr, fun h => h.resolve_left (hnot a)⟩
    by_cases hsend : v.sendable = true
    · refine hskip s (Alike.refl s) ?_ ?_
      · rintro a ⟨h, -⟩
        rw [hsend] at h
        cases h
      · simp only [accesses, hsend, if_true]
    · by_cases hv : v.name ∈ s.names
      · obtain ⟨r, t, ht, hr, hst⟩ := isTransferred_spec hs hv
        cases htr : (s.recordAt r).transferred with
        | false =>
          refine hskip t hst ?_ ?_
          · rintro a ⟨-, r', hr', htr', -⟩
            rw [← hr.unique hr', htr] at htr'
            cases htr'
          · simp only [accesses, hsend, ht, htr, bind, Except.bind]
            rfl
        | true =>
          have hvt : v.name ∈ t.names := by
            rw [names, hst.partition.names]
            exact hv
          obtain ⟨r', u, hu, hr', htu⟩ := sitesFor_spec (hst.wellFormed hs) hvt
          obtain rfl := hr.unique ((hst.partition.rep v.name r').1 hr')
          rw [hst.recordAt] at hu
          have hsu := hst.trans htu
          obtain ⟨l, w, hok, hw, hl⟩ := ih (hsu.wellFormed hs)
          refine ⟨accessOf point loc (v, kind) (s.recordAt r) :: l, w, ?_, hsu.trans hw, ?_⟩
          · simp only [accesses, hsend, ht, htr, hu, hok, bind, Except.bind, pure, Except.pure]
            rfl
          · intro a
            simp only [List.mem_cons, hl, hsu.accessedBy, exists_eq_or_imp]
            refine or_congr_left ⟨?_, ?_⟩
            · rintro rfl
              exact ⟨by simpa using hsend, r, hr, htr, rfl⟩
            · rintro ⟨-, r', hr', -, rfl⟩
              rw [hr.unique hr']
      · refine hskip s (Alike.refl s) ?_ ?_
        · rintro a ⟨-, r, hr, -⟩
          exact hv hr.mem_names
        · simp only [accesses, hsend, isTransferred_untracked hv, bind, Except.bind]
          rfl

theorem listed_accesses (hs : s.WellFormed P) {point : Point} {loc : Span}
    {ops : List (Value × AccessKind)} {l : List Access}
    (hl : ∀ a, a ∈ l ↔ ∃ e ∈ ops, s.AccessedBy point loc e a) (q : Point) (v : Name)
    (kind : AccessKind) (k : Int × Int) :
    Listed l q v kind k ↔ q = point ∧ s.view.Exposed ops v kind k := by
  refine ⟨?_, ?_⟩
  · rintro ⟨a, ha, rfl, rfl, rfl, x, hx, hk⟩
    obtain ⟨e, he, hsend, r, hr, -, rfl⟩ := (hl a).1 ha
    refine ⟨rfl, ⟨e, he, hsend, rfl, rfl⟩, (view_noted hs _ _ _).2 ⟨r, hr, x, hx, hk, ?_⟩⟩
    simp
  · rintro ⟨rfl, ⟨e, he, hsend, rfl, rfl⟩, hn⟩
    obtain ⟨r, hr, x, hx, hk, -⟩ := (view_noted hs _ _ _).1 hn
    have htr : (s.recordAt r).transferred = true :=
      (Record.transferred_iff _).2 (List.ne_nil_of_mem hx)
    exact ⟨accessOf q loc e (s.recordAt r), (hl _).2 ⟨e, he, hsend, r, hr, htr, rfl⟩,
      rfl, rfl, rfl, x, hx, hk⟩

/-- Looking for accesses finds the exposed operands, if they are watched for. -/
theorem watchedAccesses_spec (hs : s.WellFormed P) (watch : Bool) (point : Point) (loc : Span)
    (ops : List (Value × AccessKind)) :
    ∃ l t, s.watchedAccesses watch point loc ops = .ok (l, t) ∧ Alike s t ∧ AllSites P l ∧
      (watch = true → ∀ q v kind k,
        Listed l q v kind k ↔ q = point ∧ s.view.Exposed ops v kind k) := by
  cases watch with
  | false => exact ⟨[], s, rfl, Alike.refl s, by simp [AllSites], by simp⟩
  | true =>
    obtain ⟨l, t, hok, ht, hl⟩ := accesses_spec hs point loc ops
    refine ⟨l, t, hok, ht, ?_, fun _ => listed_accesses hs hl⟩
    intro a ha
    obtain ⟨e, -, -, r, -, -, rfl⟩ := (hl a).1 ha
    exact sites_recordAt hs r

end Regions

-- ============================================================================
-- Blocks
-- ============================================================================

/-- Every site that a call of a block can make satisfies `P`. -/
def Func.BlockMakes (f : Func) (P : Site → Prop) (kinds : Op → Crossing) (index : Int)
    (b : Block) : Prop :=
  ∀ (j : Nat) (op : Op), b.ops[j]? = some op → f.Makes P (kinds op) ⟨index, j, b.name⟩ op

section Blocks

variable {σ : Type} {P : Site → Prop} {s : Regions} {f : Func} {c : Classifier σ}
  {kinds : Op → Crossing}

theorem Func.passOp_spec (hP : Site.Closed P) (hs : s.WellFormed P) (hc : c.Answers f kinds)
    (watch : Bool) (memory : σ) {point : Point} {op : Op}
    (hmakes : f.Makes P (kinds op) point op) :
    ∃ r, f.passOp c watch memory s point op = .ok r ∧ r.regions.WellFormed P ∧
      r.regions.view = s.view.apply (kinds op) point.key op ∧ AllSites P r.accesses ∧
      (watch = true → ∀ q v kind k,
        Listed r.accesses q v kind k ↔ q = point ∧ s.view.Exposed op.operands v kind k) := by
  obtain ⟨l, t, hl, ht, hsites, hlisted⟩ :=
    Regions.watchedAccesses_spec hs watch point op.loc op.operands
  obtain ⟨u, hu, huwf, huview⟩ := Regions.apply_spec hP (ht.wellFormed hs) hmakes
  rw [ht.view hs] at huview
  refine ⟨⟨u, l, (c.crossing memory f op).2⟩, ?_, huwf, huview, hsites, hlisted⟩
  simp only [passOp, hl, hc memory op, hu, bind, Except.bind, pure, Except.pure]

/-- What the operations of a list make is made by the first and by the others,
    which start one number later. -/
theorem Func.makes_cons {index i : Int} {label : Name} {op : Op} {rest : List Op}
    (h : ∀ (j : Nat) (op' : Op), (op :: rest)[j]? = some op' →
      f.Makes P (kinds op') ⟨index, i + j, label⟩ op') :
    f.Makes P (kinds op) ⟨index, i, label⟩ op ∧
      ∀ (j : Nat) (op' : Op), rest[j]? = some op' →
        f.Makes P (kinds op') ⟨index, i + 1 + j, label⟩ op' := by
  refine ⟨?_, ?_⟩
  · have hi : i + ((0 : Nat) : Int) = i := by omega
    have hfirst := h 0 op rfl
    rwa [hi] at hfirst
  · intro j op' hj
    have hi : i + ((j + 1 : Nat) : Int) = i + 1 + j := by omega
    have hnext := h (j + 1) op' hj
    rwa [hi] at hnext

/-- Going through operations succeeds, and the accesses are those that the view
    reports; the induction is on the operations. -/
theorem Func.passOps_spec (hP : Site.Closed P) (hs : s.WellFormed P) (hc : c.Answers f kinds)
    (watch : Bool) (memory : σ) (index i : Int) (label : Name) {ops : List Op}
    (hmakes : ∀ (j : Nat) (op : Op), ops[j]? = some op →
      f.Makes P (kinds op) ⟨index, i + j, label⟩ op) :
    ∃ r, f.passOps c watch index label i memory s ops = .ok r ∧ r.regions.WellFormed P ∧
      r.regions.view = View.passOps kinds index i s.view ops ∧ AllSites P r.accesses ∧
      (watch = true → ∀ q v kind k, Listed r.accesses q v kind k ↔
        View.Reports kinds index label i s.view ops q v kind k) := by
  induction ops generalizing i memory s with
  | nil =>
    exact ⟨⟨s, [], memory⟩, rfl, hs, rfl, by simp [AllSites], by simp [Listed, View.Reports]⟩
  | cons op rest ih =>
    obtain ⟨hfirst, hrest⟩ := makes_cons hmakes
    obtain ⟨p, hp, hpwf, hpview, hpsites, hplisted⟩ := passOp_spec hP hs hc watch memory hfirst
    obtain ⟨r, hr, hrwf, hrview, hrsites, hrlisted⟩ := ih hpwf p.memory (i + 1) hrest
    rw [hpview] at hrview hrlisted
    refine ⟨{ r with accesses := p.accesses ++ r.accesses }, ?_, hrwf, hrview,
      hpsites.append hrsites, ?_⟩
    · simp only [passOps, hp, hr, bind, Except.bind, pure, Except.pure]
    · intro hw q v kind k
      rw [listed_append, hplisted hw, hrlisted hw]
      rfl

/-- Running over a block succeeds, changes the view as `View.passBlock` says, and
    lists the accesses that `View.BlockReports` speaks of, with sites that satisfy
    `P`. -/
theorem Func.passBlock_sites (hP : Site.Closed P) (hs : s.WellFormed P) (hc : c.Answers f kinds)
    (watch : Bool) (memory : σ) (index : Int) {b : Block} (hmakes : f.BlockMakes P kinds index b) :
    ∃ r, f.passBlock c watch memory s index b = .ok r ∧ r.regions.WellFormed P ∧
      r.regions.view = View.passBlock kinds index b s.view ∧ AllSites P r.accesses ∧
      (watch = true → ∀ q v kind k,
        Listed r.accesses q v kind k ↔ View.BlockReports kinds index b s.view q v kind k) := by
  have hops : ∀ (j : Nat) (op : Op), b.ops[j]? = some op →
      f.Makes P (kinds op) ⟨index, 0 + j, b.name⟩ op := by
    intro j op hj
    have h0 : (0 : Int) + j = j := by omega
    rw [h0]
    exact hmakes j op hj
  obtain ⟨p, hp, hpwf, hpview, hpsites, hplisted⟩ :=
    passOps_spec hP hs hc watch memory index 0 b.name hops
  cases ht : b.terminator with
  | none =>
    refine ⟨p, ?_, hpwf, hpview, hpsites, ?_⟩
    · simp only [passBlock, hp, ht, bind, Except.bind, pure, Except.pure]
    · intro hw q v kind k
      rw [hplisted hw]
      simp [View.BlockReports, ht]
  | some t =>
    obtain ⟨l, u, hl, hu, hsites, hlisted⟩ := Regions.watchedAccesses_spec hpwf watch
      ⟨index, b.ops.length, b.name⟩ t.loc t.operands
    rw [hpview] at hlisted
    refine ⟨{ p with regions := u, accesses := p.accesses ++ l }, ?_, hu.wellFormed hpwf,
      (hu.view hpwf).trans hpview, hpsites.append hsites, ?_⟩
    · simp only [passBlock, hp, ht, Regions.passTerminator, hl, bind, Except.bind, pure,
        Except.pure]
    · intro hw q v kind k
      rw [listed_append, hplisted hw, hlisted hw]
      simp [View.BlockReports, ht, View.passBlock]

theorem Func.passBlock_spec (hP : Site.Closed P) (hs : s.WellFormed P) (hc : c.Answers f kinds)
    (watch : Bool) (memory : σ) (index : Int) {b : Block} (hmakes : f.BlockMakes P kinds index b) :
    ∃ r, f.passBlock c watch memory s index b = .ok r ∧ r.regions.WellFormed P ∧
      r.regions.view = View.passBlock kinds index b s.view ∧
      (watch = true → ∀ q v kind k,
        Listed r.accesses q v kind k ↔ View.BlockReports kinds index b s.view q v kind k) := by
  obtain ⟨r, hr, hrwf, hrview, -, hlisted⟩ := passBlock_sites hP hs hc watch memory index hmakes
  exact ⟨r, hr, hrwf, hrview, hlisted⟩

end Blocks

end Sendability
