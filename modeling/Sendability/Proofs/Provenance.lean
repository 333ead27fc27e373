/-
  Every diagnostic has a cause, and control can get from there to each access.

  `Func.Made` says all of what a site tells about its call: the point, how the
  call crosses, the operands it hands over and their types. It holds of the site
  when it is made and is kept when versions of it are merged, so it is a property
  of sites that the worklist theory carries from the calls to the accesses
  (`regular_of_typed`).

  That a site has come along edges follows from leastness. The family of views
  in which everything is linked and a block notes the points of all calls that
  have a path to it solves the inequations (`solves_coming`), so the entries of
  an analysis are below it. Within a block a point is noted when the block
  starts or by an earlier operation (`View.BlockReports.origin`).
-/

import Sendability.Proofs.DataFlow
import Sendability.Proofs.Grouping

namespace Sendability

open Relation (TransGen)

-- ============================================================================
-- Where notes come from
-- ============================================================================

/-- One of the operands is the non-sendable value `v`, used in the way `kind`. -/
def Uses (operands : List (Value × AccessKind)) (v : Name) (kind : AccessKind) : Prop :=
  ∃ e ∈ operands, e.1.sendable = false ∧ e.1.name = v ∧ e.2 = kind

namespace View

variable {A : View} {kinds : Op → Crossing} {index i : Int} {v : Name} {k : Int × Int}
  {o : Option Name}

theorem noted_of_unite {S : Set Name} (h : (A.unite S).noted v k o) : ∃ w, A.noted w k o := by
  rcases h with h | ⟨-, w, -, h⟩
  · exact ⟨v, h⟩
  · exact ⟨w, h⟩

/-- A definition notes nothing new. -/
theorem noted_of_build {dest : Option Value} {parts : List Value}
    (h : (A.build dest parts).noted v k o) : ∃ w, A.noted w k o := by
  cases dest with
  | none => exact noted_of_unite h
  | some d =>
    simp only [build, define] at h
    split at h
    · exact noted_of_unite h
    · obtain ⟨w, h⟩ := noted_of_unite h
      split at h
      · exact noted_of_unite h
      · exact noted_of_unite h.2

/-- What an operation notes has its own point. -/
theorem noted_of_apply {kind : Crossing} {here : Int × Int} {op : Op}
    (h : (A.apply kind here op).noted v k o) : (∃ w, A.noted w k o) ∨ k = here := by
  cases op with
  | init dest args loc => exact .inl (noted_of_build h)
  | load dest base field loc => exact .inl (noted_of_build h)
  | copy dest src loc => exact .inl (noted_of_build h)
  | store base field value loc => exact .inl (noted_of_build h)
  | closure dest captures loc => exact .inl (noted_of_build h)
  | use value kind loc => exact .inl ⟨v, h⟩
  | call c =>
    simp only [apply] at h
    split at h
    · rcases h with h | ⟨-, h, -⟩
      · exact .inl (noted_of_build h)
      · exact .inr h
    · exact .inl (noted_of_build h)

theorem noted_of_passOps {ops : List Op} (h : (passOps kinds index i A ops).noted v k o) :
    (∃ w, A.noted w k o) ∨ ∃ j < ops.length, k = (index, i + (j : Int)) := by
  induction ops generalizing i A with
  | nil => exact .inl ⟨v, h⟩
  | cons op rest ih =>
    rcases ih h with ⟨w, hw⟩ | ⟨j, hj, rfl⟩
    · refine (noted_of_apply hw).imp_right ?_
      rintro rfl
      exact ⟨0, by simp, by simp⟩
    · have hi : i + 1 + (j : Int) = i + ((j + 1 : Nat) : Int) := by omega
      exact .inr ⟨j + 1, by simpa using hj, by rw [hi]⟩

theorem Reports.origin {label : Name} {ops : List Op} {q : Point} {kind : AccessKind}
    (h : Reports kinds index label i A ops q v kind k) :
    ∃ (j : Nat) (op : Op), ops[j]? = some op ∧ q = ⟨index, i + j, label⟩ ∧
      Uses op.operands v kind ∧
      ((∃ w, A.noted w k none) ∨ ∃ j' < j, k = (index, i + (j' : Int))) := by
  induction ops generalizing i A with
  | nil => exact h.elim
  | cons op rest ih =>
    rcases h with ⟨rfl, huses, hnoted⟩ | h
    · exact ⟨0, op, rfl, by simp, huses, .inl ⟨v, hnoted⟩⟩
    · obtain ⟨j, op', hop', rfl, huses, hk⟩ := ih h
      have hnumber : ∀ j : Nat, i + 1 + (j : Int) = i + ((j + 1 : Nat) : Int) := by omega
      refine ⟨j + 1, op', hop', by rw [hnumber], huses, ?_⟩
      rcases hk with ⟨w, hw⟩ | ⟨j', hj', rfl⟩
      · refine (noted_of_apply hw).imp_right ?_
        rintro rfl
        exact ⟨0, by omega, by simp⟩
      · exact .inr ⟨j' + 1, by omega, by rw [hnumber]⟩

/-- An access that a block reports is by one of its operations or its terminator,
    and the point of the site was noted before the block or by an operation before
    the access. -/
theorem BlockReports.origin {b : Block} {q : Point} {kind : AccessKind}
    (h : BlockReports kinds index b A q v kind k) :
    ∃ (j : Nat) (operands : List (Value × AccessKind)), b.operandLists[j]? = some operands ∧
      q = ⟨index, j, b.name⟩ ∧ Uses operands v kind ∧
      ((∃ w, A.noted w k none) ∨ ∃ j' < j, k = (index, (j' : Int))) := by
  rcases h with h | ⟨t, ht, rfl, huses, hnoted⟩
  · obtain ⟨j, op, hop, rfl, huses, hk⟩ := h.origin
    simp only [Int.zero_add] at hk ⊢
    refine ⟨j, op.operands, ?_, rfl, huses, hk⟩
    have hj : j < b.ops.length := (List.getElem?_eq_some_iff.1 hop).1
    rw [Block.operandLists, List.getElem?_append_left (by simpa using hj), List.getElem?_map, hop]
    rfl
  · refine ⟨b.ops.length, t.operands, ?_, rfl, huses, ?_⟩
    · rw [Option.mem_def] at ht
      rw [Block.operandLists, ht, List.getElem?_append_right (by simp)]
      simp
    · have hk := noted_of_passOps hnoted
      simpa only [Int.zero_add] using hk

end View

-- ============================================================================
-- What sites say about calls
-- ============================================================================

/-- The results of steps that all succeed. -/
theorem mem_of_mapM {ε α β : Type} {g : α → Except ε β} {l : List α} {r : List β}
    (h : l.mapM g = .ok r) :
    (∀ x ∈ l, ∃ y ∈ r, g x = .ok y) ∧ ∀ y ∈ r, ∃ x ∈ l, g x = .ok y := by
  induction l generalizing r with
  | nil =>
    obtain rfl := Except.ok.inj h
    simp
  | cons a l ih =>
    rw [List.mapM_cons] at h
    obtain ⟨b, hb, h⟩ := ok_of_bind h
    obtain ⟨bs, hbs, h⟩ := ok_of_bind h
    obtain rfl := Except.ok.inj h
    obtain ⟨hto, hfrom⟩ := ih hbs
    refine ⟨?_, ?_⟩
    · intro x hx
      rcases List.mem_cons.1 hx with rfl | hx
      · exact ⟨b, by simp, hb⟩
      · obtain ⟨y, hy, hxy⟩ := hto x hx
        exact ⟨y, List.mem_cons_of_mem _ hy, hxy⟩
    · intro y hy
      rcases List.mem_cons.1 hy with rfl | hy
      · exact ⟨a, by simp, hb⟩
      · obtain ⟨x, hx, hxy⟩ := hfrom y hy
        exact ⟨x, List.mem_cons_of_mem _ hx, hxy⟩

theorem typeAmong_ok {operands : List Value} {n ty : Name}
    (h : Regions.typeAmong operands n = .ok ty) :
    ∃ v ∈ operands, v.name = n ∧ v.type.name = ty := by
  rw [Regions.typeAmong] at h
  split at h
  · rename_i v hv
    refine ⟨v, by simpa using List.mem_of_find?_eq_some hv, ?_, Except.ok.inj h⟩
    simpa using List.find?_some hv
  · cases h

namespace Func

variable {σ : Type} {f : Func} {c : Classifier σ} {n : Name} {i j : Nat} {b : Block} {x : Site}
  {call : Call}

/-- Every operand carries the type that its name is defined with. -/
def Typed (f : Func) : Prop :=
  ∀ b ∈ f.blocks.values, ∀ operands ∈ b.operandLists, ∀ e ∈ operands, ∀ d ∈ f.definitions,
    d.name = e.1.name → d.type = e.1.type

instance (f : Func) : Decidable f.Typed :=
  inferInstanceAs (Decidable (∀ b ∈ f.blocks.values, ∀ operands ∈ b.operandLists, ∀ e ∈ operands,
    ∀ d ∈ f.definitions, d.name = e.1.name → d.type = e.1.type))

/-- The site `x` is what the transferring call that is operation `j` of the block
    `n` left behind. It names some non-sendable operands of the call, each once, and
    the types that these names are defined with, each once. -/
structure Made (f : Func) (c : Classifier σ) (x : Site) (n : Name) (i j : Nat) (call : Call) :
    Prop where
  place : ∃ b, f.At n i b ∧ b.ops[j]? = some (.call call)
  point : x.point = ⟨i, j, n⟩
  callee : x.callee = call.callee
  source : x.source = f.domain
  kind : ∀ memory, (c.classify memory f call).1 = x.kind
  transfers : x.kind.transfers = true
  nonempty : x.values ≠ []
  nodup : x.values.Nodup
  values : ∀ v ∈ x.values, ∃ e ∈ call.operands, e.sendable = false ∧ e.name = v
  nodupTypes : x.types.Nodup
  types : ∀ ty, ty ∈ x.types ↔ ∃ d ∈ f.definitions, d.name ∈ x.values ∧ d.type.name = ty

/-- The site is what some call left behind. -/
def Caused (f : Func) (c : Classifier σ) (x : Site) : Prop := ∃ n i j call, f.Made c x n i j call

/-- The point of a site determines the call. -/
theorem Made.unique {y : Site} {n' : Name} {i' j' : Nat} {call' : Call}
    (h : f.Made c x n i j call) (h' : f.Made c y n' i' j' call')
    (hkey : x.point.key = y.point.key) : n = n' ∧ i = i' ∧ j = j' ∧ call = call' := by
  obtain ⟨b, hat, hop⟩ := h.place
  obtain ⟨b', hat', hop'⟩ := h'.place
  rw [h.point, h'.point] at hkey
  obtain ⟨hi, hj⟩ := Prod.mk.inj hkey
  obtain rfl : i = i' := Int.ofNat.inj hi
  obtain rfl : j = j' := Int.ofNat.inj hj
  obtain ⟨rfl, rfl⟩ := hat.unique_of_index hat'
  exact ⟨rfl, rfl, rfl, Op.call.inj (Option.some.inj (hop.symm.trans hop'))⟩

theorem caused_closed (f : Func) (c : Classifier σ) : Site.Closed (f.Caused c) := by
  rintro x y ⟨n, i, j, call, hx⟩ ⟨n', i', j', call', hy⟩ hkey
  obtain ⟨rfl, rfl, rfl, rfl⟩ := hx.unique hy hkey
  refine ⟨n, i, j, call, hx.place, ?_, ?_, ?_, ?_, ?_, ?_, ?_, ?_, ?_, ?_⟩
  · rw [Site.point_merge, hx.point]
  · rw [Site.callee_merge, hx.callee]
  · rw [Site.source_merge, hx.source]
  · rw [Site.kind_merge]
    exact hx.kind
  · rw [Site.kind_merge]
    exact hx.transfers
  · rw [Site.values_merge]
    exact List.append_ne_nil_of_left_ne_nil hx.nonempty _
  · rw [Site.values_merge]
    exact Site.nodup_append_new hx.nodup hy.nodup
  · intro v hv
    rcases (Site.mem_values_merge x y v).1 hv with hv | hv
    · exact hx.values v hv
    · exact hy.values v hv
  · rw [Site.types_merge]
    exact Site.nodup_append_new hx.nodupTypes hy.nodupTypes
  · intro ty
    simp only [Site.mem_types_merge, Site.mem_values_merge, hx.types, hy.types, or_and_right,
      and_or_left, exists_or]

theorem Caused.stamped (h : f.Caused c x) : f.Stamped c x := by
  obtain ⟨n, i, j, call, hmade⟩ := h
  obtain ⟨b, hat, hop⟩ := hmade.place
  refine ⟨n, i, b, j, call, hat, hop, ?_, hmade.callee, hmade.kind, hmade.source⟩
  rw [hmade.point]
  rfl

theorem caused_coherent (f : Func) (c : Classifier σ) (memory : σ) :
    Site.Coherent (f.Caused c) :=
  fun x y hx hy => stamped_coherent f c memory x y hx.stamped hy.stamped

/-- The types that a call lists for some of its operands are the ones that their
    names are defined with. -/
theorem mem_types_iff (hvalid : f.validate = .ok ()) (htyped : f.Typed) (hat : f.At n i b)
    (hop : b.ops[j]? = some (.call call)) {values types : List Name}
    (htypes : Regions.typesAmong call.operands values = .ok types) (ty : Name) :
    ty ∈ types ↔ ∃ d ∈ f.definitions, d.name ∈ values ∧ d.type.name = ty := by
  obtain ⟨tys, htys, hdistinct⟩ := ok_of_bind htypes
  obtain rfl := Except.ok.inj hdistinct
  obtain ⟨hto, hfrom⟩ := mem_of_mapM htys
  have hoperands : (Op.call call).operands ∈ b.operandLists :=
    List.mem_append_left _ (List.mem_map.2 ⟨_, List.mem_of_getElem? hop, rfl⟩)
  have hblock : b ∈ f.blocks.values := by
    rw [Table.values, List.mem_map]
    exact ⟨(n, b), List.mem_of_getElem? hat, rfl⟩
  -- an operand has the type of every definition of its name, and there is one
  have hsame : ∀ v ∈ call.operands, ∀ d ∈ f.definitions, d.name = v.name → d.type = v.type :=
    fun v hv => htyped b hblock _ hoperands (v, .argument) (List.mem_map.2 ⟨v, hv, rfl⟩)
  have hdefined : ∀ v ∈ call.operands, ∃ d ∈ f.definitions, d.name = v.name := by
    intro v hv
    have he : (v, AccessKind.argument) ∈ (Op.call call).operands := List.mem_map.2 ⟨v, hv, rfl⟩
    exact defined_of_validate hvalid hat hoperands he
  rw [mem_distinct]
  refine ⟨?_, ?_⟩
  · intro hty
    obtain ⟨m, hm, hmty⟩ := hfrom ty hty
    obtain ⟨v, hv, rfl, rfl⟩ := typeAmong_ok hmty
    obtain ⟨d, hd, hdv⟩ := hdefined v hv
    exact ⟨d, hd, hdv ▸ hm, by rw [hsame v hv d hd hdv]⟩
  · rintro ⟨d, hd, hdvalues, rfl⟩
    obtain ⟨ty, hty, hmty⟩ := hto d.name hdvalues
    obtain ⟨v, hv, hvd, rfl⟩ := typeAmong_ok hmty
    rw [hsame v hv d hd hvd.symm]
    exact hty

theorem caused_makes (hvalid : f.validate = .ok ()) (hc : c.Steady) (htyped : f.Typed) (memory : σ)
    (hat : f.At n i b) :
    f.BlockMakes (f.Caused c) (fun op => (c.crossing memory f op).1) i b := by
  rintro j op hop call rfl htransfers values types hne hdrawn htypes
  refine ⟨n, i, j, call, ⟨b, hat, hop⟩, ?_, rfl, rfl, fun m => hc m memory f call, htransfers, hne,
    hdrawn.1, hdrawn.2, ?_, mem_types_iff hvalid htyped hat hop htypes⟩
  · rw [← name_of_validate hvalid hat]
    rfl
  · obtain ⟨tys, -, hdistinct⟩ := ok_of_bind htypes
    obtain rfl := Except.ok.inj hdistinct
    exact nodup_distinct tys

theorem regular_of_typed (hvalid : f.validate = .ok ()) (hc : c.Steady) (htyped : f.Typed)
    (memory : σ) {initial : Regions} (hinitial : Regions.entry f = .ok initial) :
    f.Regular c (fun op => (c.crossing memory f op).1) (f.Caused c) initial where
  closed := caused_closed f c
  coherent := caused_coherent f c memory
  answers := hc.answers f memory
  makes := caused_makes hvalid hc htyped memory
  initial := by
    obtain ⟨y, hy, hwf, -⟩ := entry_view f
    obtain rfl := Except.ok.inj (hinitial.symm.trans hy)
    exact hwf _
  reached := Reaches.exists_at hvalid

-- ============================================================================
-- The course of a site
-- ============================================================================

variable {kinds : Op → Crossing} {P : Site → Prop} {initial : Regions} {k : Int × Int}

/-- The point `k` is in a reached block with a path to the block `n`. -/
def Coming (f : Func) (k : Int × Int) (n : Name) : Prop :=
  ∃ (m : Name) (i : Nat) (b : Block), f.Reaches m ∧ f.At m i b ∧ k.1 = i ∧ TransGen f.Edge m n

/-- Everything is tracked and linked, and the points noted are those that are
    coming to the block. -/
def coming (f : Func) (n : Name) : View where
  tracked _ := True
  linked _ _ := True
  noted _ k _ := f.Coming k n

theorem solves_coming (hinitial : Regions.entry f = .ok initial) :
    f.Solves kinds initial f.coming where
  lawful n _ := ⟨fun _ => trivial, fun _ => trivial, fun _ => trivial, fun _ _ => trivial,
    fun _ => trivial, fun _ h => h⟩
  start := by
    obtain ⟨y, hy, -, hview⟩ := entry_view f
    obtain rfl := Except.ok.inj (hinitial.symm.trans hy)
    rw [hview]
    exact ⟨fun _ _ => trivial, fun _ _ _ => trivial, fun _ _ _ h => h.elim⟩
  edge := by
    rintro p n hp ⟨i, b, hat, hn⟩
    have hedge : f.Edge p n := ⟨i, b, hat, hn⟩
    rw [hat.flow]
    refine ⟨fun _ _ => trivial, fun _ _ _ => trivial, ?_⟩
    intro v k o hnoted
    rcases View.noted_of_passOps hnoted with ⟨-, m, i', b', hm, hat', hk, hpath⟩ | ⟨j, -, rfl⟩
    · exact ⟨m, i', b', hm, hat', hk, hpath.tail hedge⟩
    · exact ⟨p, i, b, hp, hat, rfl, TransGen.single hedge⟩

/-- The operation or the terminator that is number `j` of the block `n` uses the
    non-sendable value `v` in the way `kind`. -/
def UsedAt (f : Func) (n : Name) (i j : Nat) (v : Name) (kind : AccessKind) : Prop :=
  ∃ b operands, f.At n i b ∧ b.operandLists[j]? = some operands ∧ Uses operands v kind

/-- An access is by an operation or a terminator of a reached block, and each of
    its sites is coming to the block or stands before the access. -/
theorem Solution.access_origin {entries exits : Table Name Regions}
    (h : f.Solution kinds P initial entries exits) (hreg : f.Regular c kinds P initial)
    (hinitial : Regions.entry f = .ok initial) (hvalid : f.validate = .ok ()) {memory m : σ}
    {accesses : List Access}
    (hcollect : f.collect c entries 0 memory f.blocks.entries = .ok (accesses, m)) {a : Access}
    (ha : a ∈ accesses) (hx : x ∈ a.sites) :
    ∃ n i j, f.Reaches n ∧ a.point = ⟨(i : Nat), (j : Nat), n⟩ ∧ f.UsedAt n i j a.value a.kind ∧
      (f.Coming x.point.key n ∨ ∃ j' < j, x.point.key = ((i : Int), (j' : Int))) := by
  have hmet : Listed accesses a.point a.value a.kind x.point.key :=
    ⟨a, ha, rfl, rfl, rfl, x, hx, rfl⟩
  obtain ⟨n, i, b, s, hat, hs, hreports⟩ := ((h.collected hreg hcollect).2 _ _ _ _).1 hmet
  obtain ⟨j, operands, hoperands, hpoint, huses, hk⟩ := hreports.origin
  rw [name_of_validate hvalid hat] at hpoint
  refine ⟨n, i, j, h.only hs, hpoint, ⟨b, operands, hat, hoperands, huses⟩, hk.imp_left ?_⟩
  rintro ⟨w, hw⟩
  exact (h.least (solves_coming hinitial) hs).noted w _ _ hw

/-- Control can get from number `j` of the block `n` to number `j'` of the block
    `n'`: further down in one block, or along at least one edge. -/
def Leads (f : Func) (n : Name) (j : Nat) (n' : Name) (j' : Nat) : Prop :=
  (n = n' ∧ j < j') ∨ TransGen f.Edge n n'

theorem Made.leads {n' : Name} {i' j' : Nat} (h : f.Made c x n i j call) (hn' : f.Reaches n')
    {b' : Block} (hat' : f.At n' i' b')
    (hk : f.Coming x.point.key n' ∨ ∃ l < j', x.point.key = ((i' : Int), (l : Int))) :
    f.Reaches n ∧ f.Leads n j n' j' := by
  obtain ⟨b, hat, -⟩ := h.place
  rw [h.point] at hk
  rcases hk with ⟨m, i₀, b₀, hm, hat₀, hi, hpath⟩ | ⟨l, hl, hkey⟩
  · obtain rfl : i = i₀ := Int.ofNat.inj hi
    obtain ⟨rfl, -⟩ := hat.unique_of_index hat₀
    exact ⟨hm, .inr hpath⟩
  · obtain ⟨hi, hj⟩ := Prod.mk.inj hkey
    obtain rfl : i = i' := Int.ofNat.inj hi
    obtain rfl : j = l := Int.ofNat.inj hj
    obtain ⟨rfl, -⟩ := hat.unique_of_index hat'
    exact ⟨hn', .inl ⟨rfl, hl⟩⟩

-- ============================================================================
-- Diagnostics
-- ============================================================================

end Func

/-- The sites behind the diagnostics, each with its accesses. -/
def CheckResult.groups (r : CheckResult) : List (Site × List Access) :=
  (r.analysis.map fun a => groupAccesses a.accesses).getD []

namespace Func

variable {σ : Type} {f : Func} {c : Classifier σ}

/-- A group of accesses is justified: it is not empty, its site is what a
    transferring call of a reached block left behind, and every access is a use of a
    non-sendable value that control can get to from the call. -/
def Justified (f : Func) (c : Classifier σ) (g : Site × List Access) : Prop :=
  g.2 ≠ [] ∧ ∃ n i j call, f.Reaches n ∧ f.Made c g.1 n i j call ∧
    ∀ a ∈ g.2, ∃ n' i' j', a.point = ⟨(i' : Nat), (j' : Nat), n'⟩ ∧
      f.UsedAt n' i' j' a.value a.kind ∧ f.Leads n j n' j'

theorem solve_justified (hvalid : f.validate = .ok ()) (hc : c.Steady) (htyped : f.Typed)
    {memory memory' : σ} {bound : Int} {a : Analysis}
    (h : f.solve c memory bound = .ok (a, memory')) :
    ∀ g ∈ groupAccesses a.accesses, f.Justified c g := by
  obtain ⟨initial, p, hinitial, hrun, hempty, -, -, -, hcollect⟩ := solve_ok h
  have hreg := regular_of_typed hvalid hc htyped memory hinitial
  have hsol := (hrun.invariant hreg (invariant_start hreg.initial memory)).solution hempty
  have hsites := (hsol.collected hreg hcollect).1
  intro g hg
  obtain ⟨⟨n, i, j, call, hmade⟩, hne, hmet⟩ := groupAccesses_backed hreg.closed hsites hg
  have hcourse : ∀ x ∈ g.2, ∃ n' i' j', x.point = ⟨(i' : Nat), (j' : Nat), n'⟩ ∧
      f.UsedAt n' i' j' x.value x.kind ∧ f.Reaches n ∧ f.Leads n j n' j' := by
    intro x hx
    obtain ⟨hmem, s, hs, hkey⟩ := hmet x hx
    obtain ⟨n', i', j', hn', hpoint, hused, hk⟩ :=
      hsol.access_origin hreg hinitial hvalid hcollect hmem hs
    rw [hkey] at hk
    obtain ⟨b', operands, hat', hrest⟩ := hused
    exact ⟨n', i', j', hpoint, ⟨b', operands, hat', hrest⟩, hmade.leads hn' hat' hk⟩
  obtain ⟨x, hx⟩ := List.exists_mem_of_ne_nil _ hne
  obtain ⟨-, -, -, -, -, hreaches, -⟩ := hcourse x hx
  refine ⟨hne, n, i, j, call, hreaches, hmade, ?_⟩
  intro y hy
  obtain ⟨n', i', j', hpoint, hused, -, hleads⟩ := hcourse y hy
  exact ⟨n', i', j', hpoint, hused, hleads⟩

/-- The diagnostics of a check stand for groups of accesses, one for each, and
    every group is justified. -/
theorem check_justified (hc : c.Steady) (htyped : f.Typed) {config : Config} {memory memory' : σ}
    {bound : Option Int} {result : CheckResult}
    (h : f.check config c memory bound = .ok (result, memory')) :
    result.diagnostics = result.groups.map (fun g => siteDiagnostic config.severity g.1 g.2) ∧
      ∀ g ∈ result.groups, f.Justified c g := by
  rw [check] at h
  split at h
  · split at h
    · cases h
    · rename_i hvalid
      split at h
      · cases h
      · rename_i a m hsolve
        obtain ⟨rfl, -⟩ := Prod.mk.inj (Except.ok.inj h)
        exact ⟨rfl, solve_justified hvalid hc htyped hsolve⟩
  · obtain ⟨rfl, -⟩ := Prod.mk.inj (Except.ok.inj h)
    exact ⟨rfl, fun g hg => nomatch hg⟩

/-- The call in the loop has its diagnostic, with accesses that control gets to by
    another turn and after the loop. -/
theorem sendingLoop_justified : ∃ result, sendingLoop.Typed ∧
    sendingLoop.check {} Classifier.asWritten () none = .ok (result, ()) ∧
    (result.groups.map fun g => g.2.map fun a => a.point.key) = [[(1, 0), (1, 1), (2, 0)]] ∧
    ∀ g ∈ result.groups, sendingLoop.Justified (Classifier.asWritten : Classifier Unit) g := by
  have htyped : sendingLoop.Typed := by decide +kernel
  have hgroups : (sendingLoop.check {} Classifier.asWritten () none).toOption.map (fun r =>
      r.1.groups.map fun g => g.2.map fun a => a.point.key) =
      some [[(1, 0), (1, 1), (2, 0)]] := by
    decide +kernel
  cases h : sendingLoop.check {} Classifier.asWritten () none with
  | error e =>
    rw [h] at hgroups
    cases hgroups
  | ok r =>
    rw [h] at hgroups
    exact ⟨r.1, htyped, rfl, Option.some.inj hgroups,
      (check_justified asWritten_steady htyped h).2⟩

end Func

end Sendability
