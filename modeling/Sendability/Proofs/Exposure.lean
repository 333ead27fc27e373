/-
  What accesses say, read off the views.

  The accesses of a run over a block are listed in the order in which they are
  met, with sites as the records have them. `Access.Summary` leaves out what
  depends on how a state is stored: it has the point, the value and its type,
  the use, and the sites by their points, each with the set of values handed
  over. Summaries are a function of the view (`View.exposures`), operation by
  operation and block by block:

    * `summaries_passOps`   -- `View.opExposures`
    * `summaries_passBlock` -- `View.blockExposures`
    * `summaries_collect`   -- the exposures of all blocks with an entry

  So two runs whose views correspond list corresponding accesses.
-/

import Sendability.Proofs.DataFlow

namespace Sendability

/-- What an access says: where, of which value and type, in what way, and after
    which transfers, by their points with the sets of values handed over. -/
@[ext] structure Access.Summary where
  point : Point
  value : Name
  type : Name
  kind : AccessKind
  sites : Set ((Int × Int) × Set Name)

/-- The points of some sites with the sets of values handed over there. -/
def handovers (sites : List Site) : Set ((Int × Int) × Set Name) :=
  {p | ∃ x ∈ sites, p = (x.point.key, {w | w ∈ x.values})}

def Access.summary (a : Access) : Access.Summary :=
  ⟨a.point, a.value, a.type, a.kind, handovers a.sites⟩

/-- What some accesses say, in whatever order. -/
def summaries (l : List Access) : Set Access.Summary := {x | ∃ a ∈ l, a.summary = x}

theorem summaries_append (l l' : List Access) :
    summaries (l ++ l') = summaries l ∪ summaries l' := by
  ext x
  simp only [summaries, List.mem_append, or_and_right, exists_or, Set.mem_ofPred_eq,
    Set.mem_union]

-- ============================================================================
-- Exposures
-- ============================================================================

namespace View

/-- The transfers noted about the region of a name, with the values handed over. -/
def transfers (A : View) (v : Name) : Set ((Int × Int) × Set Name) :=
  {p | A.noted v p.1 none ∧ p.2 = {w | A.noted v p.1 (some w)}}

/-- The accesses among some operands at a point. -/
def exposures (A : View) (point : Point) (operands : List (Value × AccessKind)) :
    Set Access.Summary :=
  {x | ∃ e ∈ operands, e.1.sendable = false ∧ (∃ k, A.noted e.1.name k none) ∧
    x = ⟨point, e.1.name, e.1.type.name, e.2, A.transfers e.1.name⟩}

/-- The accesses met by some operations of the block with number `index`, which
    start at number `i`. -/
def opExposures (kinds : Op → Crossing) (index : Int) (label : Name) :
    Int → View → List Op → Set Access.Summary
  | _, _, [] => ∅
  | i, A, op :: rest => A.exposures ⟨index, i, label⟩ op.operands ∪
      opExposures kinds index label (i + 1) (A.apply (kinds op) (index, i) op) rest

/-- The accesses met by a block. -/
def blockExposures (kinds : Op → Crossing) (index : Int) (b : Block) (A : View) :
    Set Access.Summary :=
  opExposures kinds index b.name 0 A b.ops ∪
    (passBlock kinds index b A).exposures ⟨index, b.ops.length, b.name⟩
      (b.terminator.toList.flatMap Terminator.operands)

/-- What is exposed is an operand. -/
theorem exists_operand_of_exposures {A : View} {point : Point}
    {operands : List (Value × AccessKind)} {x : Access.Summary}
    (h : x ∈ A.exposures point operands) : ∃ e ∈ operands, x.value = e.1.name := by
  obtain ⟨e, he, -, -, rfl⟩ := h
  exact ⟨e, he, rfl⟩

theorem exists_operand_of_opExposures {kinds : Op → Crossing} {index i : Int} {label : Name}
    {A : View} {ops : List Op} {x : Access.Summary}
    (h : x ∈ opExposures kinds index label i A ops) :
    ∃ op ∈ ops, ∃ e ∈ op.operands, x.value = e.1.name := by
  induction ops generalizing i A with
  | nil => exact h.elim
  | cons op rest ih =>
    rcases h with h | h
    · exact ⟨op, by simp, exists_operand_of_exposures h⟩
    · obtain ⟨op', hop', he⟩ := ih h
      exact ⟨op', List.mem_cons_of_mem _ hop', he⟩

/-- Every access of a block is to one of its operands. -/
theorem exists_operand_of_blockExposures {kinds : Op → Crossing} {index : Int} {b : Block}
    {A : View} {x : Access.Summary} (h : x ∈ blockExposures kinds index b A) :
    ∃ l ∈ b.operandLists, ∃ e ∈ l, x.value = e.1.name := by
  rcases h with h | h
  · obtain ⟨op, hop, he⟩ := exists_operand_of_opExposures h
    exact ⟨op.operands, List.mem_append_left _ (List.mem_map_of_mem hop), he⟩
  · obtain ⟨e, he, hx⟩ := exists_operand_of_exposures h
    obtain ⟨t, ht, he⟩ := List.mem_flatMap.1 he
    exact ⟨t.operands, List.mem_append_right _ (List.mem_map_of_mem ht), e, he, hx⟩

end View

-- ============================================================================
-- Operands
-- ============================================================================

/-- The sites of a record in order, by what it notes: a point has one site, so the
    values noted at the point are those of the site. -/
theorem Record.Proper.handovers_eq {r : Record} (hr : r.Proper) :
    handovers r.sites = {p | r.Notes p.1 none ∧ p.2 = {w | r.Notes p.1 (some w)}} := by
  have hvalues : ∀ x ∈ r.sites, {w | w ∈ x.values} = {w | r.Notes x.point.key (some w)} := by
    intro x hx
    ext w
    refine ⟨fun hw => ⟨x, hx, rfl, by simpa using hw⟩, ?_⟩
    rintro ⟨y, hy, hkey, hw⟩
    rw [hr.eq_of_key hx hy hkey.symm]
    exact hw w rfl
  ext ⟨k, S⟩
  refine ⟨?_, ?_⟩
  · rintro ⟨x, hx, heq⟩
    obtain ⟨rfl, rfl⟩ := Prod.mk.inj heq
    exact ⟨⟨x, hx, rfl, by simp⟩, hvalues x hx⟩
  · rintro ⟨⟨x, hx, rfl, -⟩, hS⟩
    exact ⟨x, hx, Prod.ext rfl (hS.trans (hvalues x hx).symm)⟩

namespace Regions

variable {P : Site → Prop} {s : Regions}

/-- What is noted about a name is in the record of its representative. -/
theorem noted_iff_of_rep (hs : s.WellFormed P) {v r : Name} (hr : s.partition.Rep v r)
    (k : Int × Int) (o : Option Name) : s.view.noted v k o ↔ (s.recordAt r).Notes k o := by
  rw [view_noted hs]
  refine ⟨?_, fun hn => ⟨r, hr, hn⟩⟩
  rintro ⟨r', hr', hn⟩
  rw [hr.unique hr']
  exact hn

/-- The record of a region holds the transfers of its names. -/
theorem handovers_recordAt (hs : s.WellFormed P) {v r : Name} (hr : s.partition.Rep v r) :
    handovers (s.recordAt r).sites = s.view.transfers v := by
  rw [(proper_recordAt hs r).handovers_eq]
  simp only [View.transfers, noted_iff_of_rep hs hr]

/-- The accesses of some operands are told by the view. -/
theorem summaries_accesses (hs : s.WellFormed P) {point : Point} {loc : Span}
    {operands : List (Value × AccessKind)} {l : List Access} {t : Regions}
    (h : s.accesses point loc operands = .ok (l, t)) :
    summaries l = s.view.exposures point operands := by
  obtain ⟨l', t', hok, -, hl⟩ := accesses_spec hs point loc operands
  obtain ⟨rfl, -⟩ := Prod.mk.inj (Except.ok.inj (h.symm.trans hok))
  ext x
  refine ⟨?_, ?_⟩
  · rintro ⟨a, ha, rfl⟩
    obtain ⟨e, he, hsend, r, hr, htransferred, rfl⟩ := (hl a).1 ha
    rw [Record.transferred_iff] at htransferred
    obtain ⟨y, hy⟩ := List.exists_mem_of_ne_nil _ htransferred
    refine ⟨e, he, hsend, ⟨y.point.key, (noted_iff_of_rep hs hr _ _).2 ⟨y, hy, rfl, by simp⟩⟩, ?_⟩
    rw [Access.summary, accessOf, handovers_recordAt hs hr]
  · rintro ⟨e, he, hsend, ⟨k, hk⟩, rfl⟩
    obtain ⟨r, hr, y, hy, -⟩ := (view_noted hs _ _ _).1 hk
    have htransferred : (s.recordAt r).transferred = true :=
      (Record.transferred_iff _).2 (List.ne_nil_of_mem hy)
    refine ⟨_, (hl _).2 ⟨e, he, hsend, r, hr, htransferred, rfl⟩, ?_⟩
    rw [Access.summary, accessOf, handovers_recordAt hs hr]

end Regions

-- ============================================================================
-- Blocks
-- ============================================================================

namespace Func

variable {σ : Type} {P : Site → Prop} {s : Regions} {f : Func} {c : Classifier σ}
  {kinds : Op → Crossing} {initial : Regions} {memory : σ}

theorem summaries_passOp (hs : s.WellFormed P) {point : Point} {op : Op} {r : Passage σ}
    (h : f.passOp c true memory s point op = .ok r) :
    summaries r.accesses = s.view.exposures point op.operands := by
  obtain ⟨⟨l, t⟩, hl, h⟩ := ok_of_bind h
  obtain ⟨u, -, h⟩ := ok_of_bind h
  obtain rfl := Except.ok.inj h
  exact Regions.summaries_accesses hs hl

/-- The accesses of operations are told by the view before them; the induction is on
    them. -/
theorem summaries_passOps (hP : Site.Closed P) (hs : s.WellFormed P) (hc : c.Answers f kinds)
    {index i : Int} {label : Name} {ops : List Op}
    (hmakes : ∀ (j : Nat) (op : Op), ops[j]? = some op →
      f.Makes P (kinds op) ⟨index, i + j, label⟩ op) {r : Passage σ}
    (h : f.passOps c true index label i memory s ops = .ok r) :
    summaries r.accesses = View.opExposures kinds index label i s.view ops := by
  induction ops generalizing i memory s r with
  | nil =>
    obtain rfl := Except.ok.inj h
    simp [summaries, View.opExposures]
  | cons op rest ih =>
    obtain ⟨hfirst, hrest⟩ := makes_cons hmakes
    obtain ⟨p, hp, h⟩ := ok_of_bind h
    obtain ⟨q, hq, h⟩ := ok_of_bind h
    obtain rfl := Except.ok.inj h
    obtain ⟨p', hp', hwf, hview, -, -⟩ := passOp_spec hP hs hc true memory hfirst
    obtain rfl := Except.ok.inj (hp.symm.trans hp')
    rw [summaries_append, summaries_passOp hs hp, ih hwf hrest hq, hview, View.opExposures]
    rfl

theorem summaries_passBlock (hP : Site.Closed P) (hs : s.WellFormed P) (hc : c.Answers f kinds)
    {index : Int} {b : Block} (hmakes : f.BlockMakes P kinds index b) {r : Passage σ}
    (h : f.passBlock c true memory s index b = .ok r) :
    summaries r.accesses = View.blockExposures kinds index b s.view := by
  have hops : ∀ (j : Nat) (op : Op), b.ops[j]? = some op →
      f.Makes P (kinds op) ⟨index, 0 + j, b.name⟩ op := by
    intro j op hj
    rw [Int.zero_add]
    exact hmakes j op hj
  obtain ⟨p, hp, h⟩ := ok_of_bind h
  obtain ⟨p', hp', hwf, hview, -, -⟩ := passOps_spec hP hs hc true memory index 0 b.name hops
  obtain rfl := Except.ok.inj (hp.symm.trans hp')
  have hfirst := summaries_passOps hP hs hc hops hp
  cases hterm : b.terminator with
  | none =>
    rw [hterm] at h
    obtain rfl := Except.ok.inj h
    simp [hfirst, View.blockExposures, View.exposures, hterm]
  | some t =>
    rw [hterm] at h
    obtain ⟨⟨l, u⟩, hl, h⟩ := ok_of_bind h
    obtain rfl := Except.ok.inj h
    have hlast := Regions.summaries_accesses hwf hl
    rw [hview] at hlast
    simp [summaries_append, hfirst, hlast, View.blockExposures, View.passBlock, hterm]

/-- The accesses of the last pass are the exposures of the blocks with an entry. -/
theorem summaries_collect_from (hreg : f.Regular c kinds P initial) {entries : Table Name Regions}
    (hentries : ∀ n s, entries.get? n = some s → s.WellFormed P) {l : List (Name × Block)}
    {i : Nat} (hl : ∀ e ∈ l.zipIdx i, f.At e.1.1 e.2 e.1.2) {m : σ} {accesses : List Access}
    (h : f.collect c entries i memory l = .ok (accesses, m)) (x : Access.Summary) :
    x ∈ summaries accesses ↔ ∃ e ∈ l.zipIdx i, ∃ s, entries.get? e.1.1 = some s ∧
      x ∈ View.blockExposures kinds e.2 e.1.2 s.view := by
  induction l generalizing i memory accesses with
  | nil =>
    obtain ⟨rfl, -⟩ := Prod.mk.inj (Except.ok.inj h)
    simp [summaries]
  | cons e l ih =>
    obtain ⟨n, b⟩ := e
    rw [List.zipIdx_cons] at hl ⊢
    have hat : f.At n i b := hl ((n, b), i) (by simp)
    have hrest : ∀ e ∈ l.zipIdx (i + 1), f.At e.1.1 e.2 e.1.2 :=
      fun e he => hl e (List.mem_cons_of_mem _ he)
    simp only [List.mem_cons, exists_eq_or_imp]
    rw [collect] at h
    cases hs : entries.get? n with
    | none =>
      rw [hs] at h
      rw [ih hrest h]
      simp
    | some s =>
      rw [hs] at h
      obtain ⟨q, hq, h⟩ := ok_of_bind h
      obtain ⟨⟨more, m'⟩, hmore, h⟩ := ok_of_bind h
      obtain ⟨rfl, rfl⟩ := Prod.mk.inj (Except.ok.inj h)
      have hfirst := summaries_passBlock hreg.closed (hentries n s hs) hreg.answers
        (hreg.makes hat) hq
      rw [summaries_append, Set.mem_union, hfirst, ih hrest hmore]
      simp

/-- The accesses of an analysis are those that its entries tell. -/
theorem summaries_collect (hreg : f.Regular c kinds P initial) {entries : Table Name Regions}
    (hentries : ∀ n s, entries.get? n = some s → s.WellFormed P) {m : σ} {accesses : List Access}
    (h : f.collect c entries 0 memory f.blocks.entries = .ok (accesses, m)) (x : Access.Summary) :
    x ∈ summaries accesses ↔ ∃ n i b s, f.At n i b ∧ entries.get? n = some s ∧
      x ∈ View.blockExposures kinds i b s.view := by
  have hall : ∀ e ∈ f.blocks.entries.zipIdx, f.At e.1.1 e.2 e.1.2 :=
    fun e he => List.mem_zipIdx_iff_getElem?.1 he
  rw [summaries_collect_from hreg hentries hall h]
  refine ⟨?_, ?_⟩
  · rintro ⟨e, he, s, hs, hx⟩
    exact ⟨e.1.1, e.2, e.1.2, s, hall e he, hs, hx⟩
  · rintro ⟨n, i, b, s, hat, hs, hx⟩
    exact ⟨((n, b), i), List.mem_zipIdx_iff_getElem?.2 hat, s, hs, hx⟩

end Func

end Sendability
