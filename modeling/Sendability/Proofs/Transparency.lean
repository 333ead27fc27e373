/-
  Sendable values are transparent to the analysis.

  Two functions that differ in sendable values only (`Func.Resembles`) are
  analysed in the same way: the same number of evaluations, equal states at the
  entries and exits, and the same accesses. The states are equal as they are
  stored, not only in what can be observed of them.

  The argument has two layers. The transfer functions look at the non-sendable
  ones among some values (`visible`), so operations that resemble each other do
  the same (`Op.Resembles.apply`). The worklist looks at blocks through their
  names, their successors and what a run over them does, so functions that agree
  in these have the same analysis (`Func.Parallel`), whatever the reason.

  One look-up does see sendable values: the type of an operand is that of the
  last operand of its name. That is why a name must not be used with types of
  both kinds (`Uniform`).
-/

import Mathlib.Data.List.Find
import Mathlib.Data.List.Forall2
import Sendability.Proofs.Safety

namespace Sendability

-- ============================================================================
-- Values
-- ============================================================================

/-- The non-sendable ones of some values. -/
def visible (vs : List Value) : List Value := vs.filter fun v => !v.sendable

/-- No name is used both with a sendable and with a non-sendable type. -/
def Uniform (vs : List Value) : Prop :=
  ∀ v ∈ vs, ∀ w ∈ vs, v.name = w.name → v.sendable = w.sendable

instance (vs : List Value) : Decidable (Uniform vs) :=
  inferInstanceAs (Decidable (∀ v ∈ vs, ∀ w ∈ vs, v.name = w.name → v.sendable = w.sendable))

theorem Uniform.mono {vs ws : List Value} (h : Uniform ws) (hsub : ∀ v ∈ vs, v ∈ ws) :
    Uniform vs :=
  fun v hv w hw => h v (hsub v hv) w (hsub w hw)

theorem visible_append (vs ws : List Value) : visible (vs ++ ws) = visible vs ++ visible ws :=
  List.filter_append vs ws

theorem visible_cons_of_not_sendable {v : Value} (h : v.sendable = false) (vs : List Value) :
    visible (v :: vs) = v :: visible vs := by
  rw [visible, List.filter_cons_of_pos (by simp [h])]
  rfl

theorem visible_cons_of_sendable {v : Value} (h : v.sendable = true) (vs : List Value) :
    visible (v :: vs) = visible vs := by
  rw [visible, List.filter_cons_of_neg (by simp [h])]
  rfl

namespace Regions

variable {s : Regions} {vs ws : List Value}

/-- Only values that are not sendable are looked up. -/
theorem tracked_visible (s : Regions) (vs : List Value) : s.tracked (visible vs) = s.tracked vs := by
  rw [tracked, visible, List.filter_filter, tracked]
  congr 3
  funext v
  cases v.sendable with
  | true => simp
  | false => simp

theorem tracked_congr (h : visible vs = visible ws) (s : Regions) :
    s.tracked vs = s.tracked ws := by
  rw [← tracked_visible, h, tracked_visible]

/-- A sendable destination counts for nothing. -/
theorem define_congr {dest dest' : Option Value} (h : visible dest.toList = visible dest'.toList)
    (s : Regions) (source : List Name) : s.define dest source = s.define dest' source := by
  -- a sendable or absent value defines nothing
  have hnone : ∀ o : Option Value, visible o.toList = [] → s.define o source = .ok s := by
    intro o ho
    cases o with
    | none => rfl
    | some d =>
      cases hd : d.sendable with
      | true => simp [define, hd]
      | false =>
        rw [Option.toList_some, visible_cons_of_not_sendable hd] at ho
        cases ho
  cases dest with
  | none => rw [hnone dest' h.symm, hnone none rfl]
  | some d =>
    cases hd : d.sendable with
    | true =>
      have hd' : visible (some d).toList = [] := by
        rw [Option.toList_some, visible_cons_of_sendable hd]
        rfl
      rw [hnone (some d) hd', hnone dest' (h.symm.trans hd')]
    | false =>
      rw [Option.toList_some, visible_cons_of_not_sendable hd] at h
      cases dest' with
      | none => cases h
      | some d' =>
        cases hd' : d'.sendable with
        | true =>
          rw [Option.toList_some, visible_cons_of_sendable hd'] at h
          cases h
        | false =>
          rw [Option.toList_some, visible_cons_of_not_sendable hd'] at h
          rw [(List.cons.inj h).1]

theorem build_congr {dest dest' : Option Value} (hdest : visible dest.toList = visible dest'.toList)
    (hparts : visible vs = visible ws) (s : Regions) : s.build dest vs = s.build dest' ws := by
  rw [build, build, tracked_congr hparts]
  simp only [define_congr hdest]

/-- The type of a non-sendable operand is found among the non-sendable ones. -/
theorem typeAmong_visible (hu : Uniform vs) {n : Name}
    (hn : ∃ v ∈ vs, v.sendable = false ∧ v.name = n) :
    typeAmong (visible vs) n = typeAmong vs n := by
  obtain ⟨v, hv, hsend, hvn⟩ := hn
  have hfind : (visible vs).reverse.find? (·.name = n) = vs.reverse.find? (·.name = n) := by
    rw [visible, ← List.filter_reverse, List.find?_filter]
    apply List.find?_congr
    intro w hw
    rw [List.mem_reverse] at hw
    by_cases hwn : w.name = n
    · have hws : w.sendable = false := (hu w hw v hv (hwn.trans hvn.symm)).trans hsend
      simp [hwn, hws]
    · simp [hwn]
  rw [typeAmong, hfind, typeAmong]

/-- The types of names are found without the sendable values, if every name has one
    type. -/
theorem typesAmong_visible (hu : Uniform vs) {names : List Name}
    (hnames : ∀ n ∈ names, ∃ v ∈ vs, v.sendable = false ∧ v.name = n) :
    typesAmong (visible vs) names = typesAmong vs names := by
  have hmap : names.mapM (typeAmong (visible vs)) = names.mapM (typeAmong vs) := by
    induction names with
    | nil => rfl
    | cons n names ih =>
      rw [List.mapM_cons, List.mapM_cons, typeAmong_visible hu (hnames n (by simp)),
        ih fun m hm => hnames m (List.mem_cons_of_mem _ hm)]
  rw [typesAmong, hmap, typesAmong]

-- ============================================================================
-- Accesses
-- ============================================================================

/-- Sendable operands are no accesses. -/
theorem accesses_visible (s : Regions) (point : Point) (loc : Span)
    (operands : List (Value × AccessKind)) :
    s.accesses point loc (operands.filter fun e => !e.1.sendable) =
      s.accesses point loc operands := by
  induction operands generalizing s with
  | nil => rfl
  | cons e rest ih =>
    obtain ⟨v, kind⟩ := e
    cases hv : v.sendable with
    | true =>
      rw [List.filter_cons_of_neg (by simp [hv]), ih, accesses, if_pos hv]
    | false =>
      rw [List.filter_cons_of_pos (by simp [hv]), accesses, accesses]
      simp only [ih]

/-- Sendable operands are no accesses. -/
theorem watchedAccesses_congr {operands operands' : List (Value × AccessKind)}
    (h : (operands.filter fun e => !e.1.sendable) = operands'.filter fun e => !e.1.sendable)
    (s : Regions) (watch : Bool) (point : Point) (loc : Span) :
    s.watchedAccesses watch point loc operands = s.watchedAccesses watch point loc operands' := by
  rw [watchedAccesses, watchedAccesses, ← accesses_visible, h, accesses_visible]

end Regions

/-- Values that are used in one way are visible as such. -/
theorem filter_map_kind (vs : List Value) (kind : AccessKind) :
    ((vs.map (·, kind)).filter fun e => !e.1.sendable) = (visible vs).map (·, kind) := by
  rw [List.filter_map]
  rfl

-- ============================================================================
-- Operations
-- ============================================================================

/-- Operations of one kind that differ in sendable values only. A slot is
    compared as the list of at most one value that it holds. -/
inductive Op.Resembles : Op → Op → Prop
  | init {d d' : Value} {args args' : List Value} {loc : Span} :
      visible [d] = visible [d'] → visible args = visible args' →
      Resembles (.init d args loc) (.init d' args' loc)
  | load {d d' base base' : Value} {field field' : Name} {loc : Span} :
      visible [d] = visible [d'] → visible [base] = visible [base'] →
      Resembles (.load d base field loc) (.load d' base' field' loc)
  | copy {d d' src src' : Value} {loc : Span} :
      visible [d] = visible [d'] → visible [src] = visible [src'] →
      Resembles (.copy d src loc) (.copy d' src' loc)
  | store {base base' value value' : Value} {field field' : Name} {loc : Span} :
      visible [base] = visible [base'] → visible [value] = visible [value'] →
      Resembles (.store base field value loc) (.store base' field' value' loc)
  | closure {d d' : Value} {captures captures' : List Value} {loc : Span} :
      visible [d] = visible [d'] → visible captures = visible captures' →
      Resembles (.closure d captures loc) (.closure d' captures' loc)
  | call {c c' : Call} :
      c.callee = c'.callee → c.domain = c'.domain → c.spawns = c'.spawns → c.loc = c'.loc →
      visible c.dest.toList = visible c'.dest.toList →
      visible c.receiver.toList = visible c'.receiver.toList → visible c.args = visible c'.args →
      Resembles (.call c) (.call c')
  | use {v v' : Value} {kind : AccessKind} {loc : Span} :
      visible [v] = visible [v'] → Resembles (.use v kind loc) (.use v' kind loc)

/-- Terminators with the same targets that use the same non-sendable value, if
    any, and in the same way. -/
structure Terminator.Resembles (t t' : Terminator) : Prop where
  targets : t.successors = t'.successors
  loc : t.loc = t'.loc
  operands : (t.operands.filter fun e => !e.1.sendable) = t'.operands.filter fun e => !e.1.sendable

/-- The classifiers that read the answers written on calls, or look callees up
    first. -/
inductive Classifier.Declared {σ : Type} : Classifier σ → Prop
  | asWritten : Declared Classifier.asWritten
  | byCallee {fallback : Classifier σ} (answers : Table Name Crossing) :
      Declared fallback → Declared (Classifier.byCallee answers fallback)

section Operations

variable {σ : Type} {c : Classifier σ} {f g : Func} {op op' : Op}

/-- What is declared on a call decides how it crosses. -/
theorem Classifier.Declared.classify (hc : c.Declared) (hdomain : f.domain = g.domain)
    {call call' : Call} (hcallee : call.callee = call'.callee) (htarget : call.domain = call'.domain)
    (hspawns : call.spawns = call'.spawns) (memory : σ) :
    c.classify memory f call = c.classify memory g call' := by
  induction hc with
  | asWritten =>
    simp only [Classifier.asWritten, Classifier.ofFunction, Classifier.annotated, hdomain, htarget,
      hspawns]
  | byCallee answers _ ih =>
    simp only [Classifier.byCallee, hcallee, ih]

theorem Op.Resembles.crossing (h : op.Resembles op') (hc : c.Declared)
    (hdomain : f.domain = g.domain) (memory : σ) :
    c.crossing memory f op = c.crossing memory g op' := by
  cases h with
  | call hcallee htarget hspawns _ _ _ _ => exact hc.classify hdomain hcallee htarget hspawns memory
  | _ => rfl

theorem Op.Resembles.loc (h : op.Resembles op') : op.loc = op'.loc := by
  cases h with
  | call _ _ _ hloc _ _ _ => exact hloc
  | _ => rfl

theorem Op.Resembles.dest (h : op.Resembles op') :
    visible op.dest?.toList = visible op'.dest?.toList := by
  cases h with
  | init hd _ => exact hd
  | load hd _ => exact hd
  | copy hd _ => exact hd
  | store _ _ => rfl
  | closure hd _ => exact hd
  | call _ _ _ _ hd _ _ => exact hd
  | use _ => rfl

theorem visible_operands {c c' : Call}
    (hreceiver : visible c.receiver.toList = visible c'.receiver.toList)
    (hargs : visible c.args = visible c'.args) : visible c.operands = visible c'.operands := by
  rw [Call.operands, visible_append, hreceiver, hargs, ← visible_append, Call.operands]

/-- Operations that resemble each other have the same operands but for sendable ones. -/
theorem Op.Resembles.operands (h : op.Resembles op') :
    (op.operands.filter fun e => !e.1.sendable) =
      op'.operands.filter fun e => !e.1.sendable := by
  have hone : ∀ (v : Value) (kind : AccessKind), [(v, kind)] = [v].map (·, kind) := fun _ _ => rfl
  have htwo : ∀ (v w : Value) (k k' : AccessKind),
      [(v, k), (w, k')] = [v].map (·, k) ++ [w].map (·, k') := fun _ _ _ _ => rfl
  cases h with
  | init _ hargs => simp only [Op.operands, filter_map_kind, hargs]
  | load _ hbase => simp only [Op.operands, hone, filter_map_kind, hbase]
  | copy _ hsrc => simp only [Op.operands, hone, filter_map_kind, hsrc]
  | store hbase hvalue =>
    simp only [Op.operands, htwo, List.filter_append, filter_map_kind, hbase, hvalue]
  | closure _ hcaptures => simp only [Op.operands, filter_map_kind, hcaptures]
  | call _ _ _ _ _ hreceiver hargs =>
    simp only [Op.operands, filter_map_kind, visible_operands hreceiver hargs]
  | use hv => simp only [Op.operands, hone, filter_map_kind, hv]

/-- The site of a call is made of what the two calls have in common. -/
theorem Regions.transfer_congr (hdomain : f.domain = g.domain) {call call' : Call}
    (hcallee : call.callee = call'.callee) (htarget : call.domain = call'.domain)
    (hloc : call.loc = call'.loc) (hoperands : visible call.operands = visible call'.operands)
    (hu : Uniform call.operands) (hu' : Uniform call'.operands) {source : List Name}
    (hsource : ∀ n ∈ source, ∃ v ∈ call.operands, v.sendable = false ∧ v.name = n)
    (hsource' : ∀ n ∈ source, ∃ v ∈ call'.operands, v.sendable = false ∧ v.name = n)
    (s : Regions) (kind : Crossing) (point : Point) :
    s.transfer f call kind point source = s.transfer g call' kind point source := by
  cases source with
  | nil => rfl
  | cons v vs =>
    have htypes : typesAmong call.operands (v :: vs) = typesAmong call'.operands (v :: vs) := by
      rw [← typesAmong_visible hu hsource, hoperands, typesAmong_visible hu' hsource']
    have htargets : call.targetDomain kind = call'.targetDomain kind := by
      cases kind with
      | sameDomain => rfl
      | entering => exact htarget
      | spawning => exact htarget
    rw [transfer, transfer, htypes, hcallee, hdomain, hloc, htargets]

/-- Operations that resemble each other do the same to regions. -/
theorem Op.Resembles.apply (h : op.Resembles op') (hdomain : f.domain = g.domain)
    (hu : Uniform (op.operands.map Prod.fst)) (hu' : Uniform (op'.operands.map Prod.fst))
    (s : Regions) (kind : Crossing) (point : Point) :
    s.apply f kind point op = s.apply g kind point op' := by
  -- the slot of a destination that is always there
  have hslot : ∀ {d d' : Value}, visible [d] = visible [d'] →
      visible (some d).toList = visible (some d').toList := fun h => h
  cases h with
  | init hd hargs => exact Regions.build_congr (hslot hd) hargs s
  | load hd hbase => exact Regions.build_congr (hslot hd) hbase s
  | copy hd hsrc => exact Regions.build_congr (hslot hd) hsrc s
  | @store base base' value value' _ _ _ hbase hvalue =>
    have hboth : visible ([base] ++ [value]) = visible ([base'] ++ [value']) := by
      rw [visible_append, hbase, hvalue, ← visible_append]
    exact Regions.build_congr rfl hboth s
  | closure hd hcaptures => exact Regions.build_congr (hslot hd) hcaptures s
  | @call call call' hcallee htarget _ hloc hd hreceiver hargs =>
    have hoperands := visible_operands hreceiver hargs
    have huniform : ∀ k : Call, ((Op.call k).operands.map Prod.fst) = k.operands := by
      intro k
      rw [Op.operands, List.map_map]
      exact List.map_id _
    rw [huniform] at hu hu'
    have htracked := Regions.tracked_congr hoperands s
    have hdrawn := (Regions.drawn_tracked s call.operands).2
    have hdrawn' := (Regions.drawn_tracked s call'.operands).2
    rw [← htracked] at hdrawn'
    simp only [Regions.apply, Regions.build_congr hd hoperands, ← htracked]
    congr 1
    funext t
    exact Regions.transfer_congr hdomain hcallee htarget hloc hoperands hu hu' hdrawn hdrawn' t kind
      point
  | use _ => rfl

end Operations

-- ============================================================================
-- Blocks
-- ============================================================================

/-- Blocks with operations of the same kinds at the same places that differ in
    sendable values only. -/
structure Block.Resembles (b b' : Block) : Prop where
  ops : List.Forall₂ Op.Resembles b.ops b'.ops
  terminator : Option.Rel Terminator.Resembles b.terminator b'.terminator

/-- The values that a function uses or defines, wherever they stand. -/
def Func.values (f : Func) : List Value :=
  f.definitions ++ f.blocks.values.flatMap fun b => b.operandLists.flatten.map Prod.fst

section Blocks

variable {σ : Type} {c : Classifier σ} {f g : Func} {b b' : Block}

/-- An operation leaves no trace of its sendable operands. -/
theorem Func.passOp_congr (hc : c.Declared) (hdomain : f.domain = g.domain) {op op' : Op}
    (h : op.Resembles op') (hu : Uniform (op.operands.map Prod.fst))
    (hu' : Uniform (op'.operands.map Prod.fst)) (watch : Bool) (memory : σ) (s : Regions)
    (point : Point) :
    f.passOp c watch memory s point op = g.passOp c watch memory s point op' := by
  rw [passOp, passOp, Regions.watchedAccesses_congr h.operands, h.loc]
  simp only [h.crossing hc hdomain, h.apply hdomain hu hu']

/-- Operations leave no trace of their sendable operands; the induction is on both
    lists. -/
theorem Func.passOps_congr (hc : c.Declared) (hdomain : f.domain = g.domain) {ops ops' : List Op}
    (h : List.Forall₂ Op.Resembles ops ops') (hu : ∀ op ∈ ops, Uniform (op.operands.map Prod.fst))
    (hu' : ∀ op ∈ ops', Uniform (op.operands.map Prod.fst)) (watch : Bool) (index i : Int)
    (label : Name) (memory : σ) (s : Regions) :
    f.passOps c watch index label i memory s ops =
      g.passOps c watch index label i memory s ops' := by
  induction h generalizing i memory s with
  | nil => rfl
  | cons hop _ ih =>
    have hrest := ih (fun op hmem => hu op (List.mem_cons_of_mem _ hmem))
      fun op hmem => hu' op (List.mem_cons_of_mem _ hmem)
    rw [passOps, passOps, passOp_congr hc hdomain hop (hu _ (by simp)) (hu' _ (by simp))]
    simp only [hrest]

theorem Block.Resembles.successors (h : b.Resembles b') : b.successors = b'.successors := by
  have hterm := h.terminator
  rw [Block.successors, Block.successors]
  generalize b.terminator = t at hterm ⊢
  generalize b'.terminator = t' at hterm ⊢
  cases hterm with
  | none => rfl
  | some ht => exact ht.targets

/-- Blocks of one name that resemble each other are run over in the same way. -/
theorem Func.passBlock_congr (hc : c.Declared) (hdomain : f.domain = g.domain)
    (h : b.Resembles b') (hname : b.name = b'.name)
    (hu : ∀ op ∈ b.ops, Uniform (op.operands.map Prod.fst))
    (hu' : ∀ op ∈ b'.ops, Uniform (op.operands.map Prod.fst)) (watch : Bool) (memory : σ)
    (s : Regions) (index : Int) :
    f.passBlock c watch memory s index b = g.passBlock c watch memory s index b' := by
  have hterm := h.terminator
  rw [passBlock, passBlock, passOps_congr hc hdomain h.ops hu hu', hname]
  congr 1
  funext p
  generalize b.terminator = t at hterm ⊢
  generalize b'.terminator = t' at hterm ⊢
  cases hterm with
  | none => rfl
  | some ht =>
    simp only [Regions.passTerminator, Regions.watchedAccesses_congr ht.operands, ht.loc,
      h.ops.length_eq]

theorem Func.uniform_ops (hu : Uniform f.values) {n : Name} {i : Nat} (hat : f.At n i b) :
    ∀ op ∈ b.ops, Uniform (op.operands.map Prod.fst) := by
  intro op hop
  refine hu.mono ?_
  intro v hv
  have hb : b ∈ f.blocks.values := List.mem_map_of_mem (List.mem_of_getElem? hat)
  have hlist : op.operands ∈ b.operandLists :=
    List.mem_append_left _ (List.mem_map_of_mem hop)
  obtain ⟨e, he, rfl⟩ := List.mem_map.1 hv
  have hmem : e ∈ b.operandLists.flatten := List.mem_flatten.2 ⟨_, hlist, he⟩
  exact List.mem_append_right _ (List.mem_flatMap.2 ⟨b, hb, List.mem_map_of_mem hmem⟩)

end Blocks

-- ============================================================================
-- Functions that are run alike
-- ============================================================================

namespace Func

variable {σ : Type} {c : Classifier σ} {f g : Func}

/-- Two blocks have one name and the same successors, and a run over one does
    what a run over the other does. -/
def Twin (c : Classifier σ) (f g : Func) (x y : Name × Block) : Prop :=
  x.1 = y.1 ∧ x.2.successors = y.2.successors ∧ ∀ watch memory s (index : Int),
    f.passBlock c watch memory s index x.2 = g.passBlock c watch memory s index y.2

/-- Two functions start alike and have the same blocks, as far as the worklist
    can tell. -/
structure Parallel (c : Classifier σ) (f g : Func) : Prop where
  entry : f.entry = g.entry
  initial : Regions.entry f = Regions.entry g
  blocks : List.Forall₂ (Twin c f g) f.blocks.entries g.blocks.entries

section Twins

variable {l l' : List (Name × Block)}

theorem keys_of_twins (h : List.Forall₂ (Twin c f g) l l') : l.map Prod.fst = l'.map Prod.fst := by
  induction h with
  | nil => rfl
  | cons hxy _ ih => rw [List.map_cons, List.map_cons, hxy.1, ih]

theorem predecessors_of_twins (h : List.Forall₂ (Twin c f g) l l') (n : Name) :
    (l.filter fun x => x.2.successors.contains n).map Prod.fst =
      (l'.filter fun x => x.2.successors.contains n).map Prod.fst := by
  induction h with
  | nil => rfl
  | @cons x y l l' hxy _ ih =>
    obtain ⟨hname, hsucc, -⟩ := hxy
    rw [List.filter_cons, List.filter_cons, hsucc]
    split
    · rw [List.map_cons, List.map_cons, ih, hname]
    · exact ih

/-- Blocks that are twins stand under the same names. -/
theorem lookup_of_twins (h : List.Forall₂ (Twin c f g) l l') (n : Name) :
    (Table.lookup n l = none ∧ Table.lookup n l' = none) ∨
      ∃ b b', Table.lookup n l = some b ∧ Table.lookup n l' = some b' ∧ Twin c f g (n, b) (n, b') := by
  induction h with
  | nil => exact .inl ⟨rfl, rfl⟩
  | @cons x y l l' hxy _ ih =>
    obtain ⟨k, b⟩ := x
    obtain ⟨k', b'⟩ := y
    obtain rfl : k = k' := hxy.1
    rw [Table.lookup_cons, Table.lookup_cons]
    by_cases hk : k = n
    · rw [if_pos hk, if_pos hk]
      exact .inr ⟨b, b', rfl, rfl, rfl, hxy.2⟩
    · rw [if_neg hk, if_neg hk]
      exact ih

/-- Blocks that are twins have the same accesses. -/
theorem collect_of_twins (h : List.Forall₂ (Twin c f g) l l') (entries : Table Name Regions)
    (i : Nat) (memory : σ) :
    f.collect c entries i memory l = g.collect c entries i memory l' := by
  induction h generalizing i memory with
  | nil => rfl
  | @cons x y l l' hxy _ ih =>
    obtain ⟨n, b⟩ := x
    obtain ⟨n', b'⟩ := y
    obtain ⟨rfl, -, hpass⟩ := hxy
    rw [Func.collect, Func.collect]
    simp only [hpass, ih]

end Twins

section Parallel

theorem Parallel.blockIndex? (h : Parallel c f g) (n : Name) : f.blockIndex? n = g.blockIndex? n := by
  rw [Func.blockIndex?, Table.keys, keys_of_twins h.blocks, Func.blockIndex?, Table.keys]

theorem Parallel.predecessors (h : Parallel c f g) (n : Name) :
    f.predecessors n = g.predecessors n :=
  predecessors_of_twins h.blocks n

theorem Parallel.get? (h : Parallel c f g) (n : Name) :
    (f.blocks.get? n = none ∧ g.blocks.get? n = none) ∨
      ∃ b b', f.blocks.get? n = some b ∧ g.blocks.get? n = some b' ∧ Twin c f g (n, b) (n, b') :=
  lookup_of_twins h.blocks n

theorem Parallel.contains (h : Parallel c f g) (n : Name) :
    f.blocks.contains n = g.blocks.contains n := by
  rw [Table.contains, Table.contains]
  rcases h.get? n with ⟨hf, hg⟩ | ⟨b, b', hf, hg, -⟩
  · rw [hf, hg]
  · rw [hf, hg]
    rfl

/-- The same flows into a block of functions that are parallel. -/
theorem Parallel.entryRegions (h : Parallel c f g) (initial : Regions)
    (exits : Table Name Regions) (n : Name) :
    f.entryRegions initial exits n = g.entryRegions initial exits n := by
  rw [Func.entryRegions, Func.entryRegions, incoming, incoming, h.entry, h.predecessors]

/-- What is passed on does not tell parallel functions apart. -/
theorem Parallel.propagate (h : Parallel c f g) (initial : Regions) (p : Progress σ)
    (pending : List Name) : f.propagate initial p pending = g.propagate initial p pending := by
  induction pending generalizing p with
  | nil => rfl
  | cons n rest ih =>
    have hrefresh : f.refresh initial p n = g.refresh initial p n := by
      rw [refresh, refresh, h.entryRegions]
    rw [Func.propagate, Func.propagate, h.contains, hrefresh]
    simp only [ih]

/-- One evaluation does not tell parallel functions apart. -/
theorem Parallel.evaluate (h : Parallel c f g) (initial : Regions) (p : Progress σ) (n : Name) :
    f.evaluate c initial p n = g.evaluate c initial p n := by
  rw [Func.evaluate, Func.evaluate, h.blockIndex?]
  rcases h.get? n with ⟨hf, hg⟩ | ⟨b, b', hf, hg, -, hsucc, hpass⟩
  · rw [hf, hg]
  · rw [hf, hg]
    cases g.blockIndex? n with
    | none => rfl
    | some i =>
      cases p.entries.get? n with
      | none => rfl
      | some s =>
        have hrun : f.passBlock c false p.memory s i b = g.passBlock c false p.memory s i b' :=
          hpass false p.memory s i
        have hnext : b.successors = b'.successors := hsucc
        simp only [hrun, hnext, h.propagate]

/-- The loop ends in one function when it ends in the other, and in the same way. -/
theorem Parallel.drain_ok_iff (h : Parallel c f g) (initial : Regions) (bound : Int) (fuel : Nat)
    (p q : Progress σ) :
    f.drain c initial bound fuel p = .ok q ↔ g.drain c initial bound fuel p = .ok q := by
  induction fuel generalizing p with
  | zero =>
    rw [drain, drain]
    cases p.queue with
    | nil => exact Iff.rfl
    | cons n rest => exact iff_of_false (fun h => by cases h) fun h => by cases h
  | succ fuel ih =>
    rw [drain, drain]
    cases p.queue with
    | nil => exact Iff.rfl
    | cons n rest =>
      simp only [h.evaluate]
      cases g.evaluate c initial { p with queue := rest } n with
      | error e => exact Iff.rfl
      | ok p' => exact ih p'

/-- Parallel functions have one analysis. -/
theorem Parallel.solve_ok_iff (h : Parallel c f g) (memory : σ) (bound : Int) (r : Analysis × σ) :
    f.solve c memory bound = .ok r ↔ g.solve c memory bound = .ok r := by
  rw [solve, solve, h.initial]
  cases orUntracked (Regions.entry g) with
  | error e => exact Iff.rfl
  | ok initial =>
    have hstart : f.startProgress initial memory = g.startProgress initial memory := by
      rw [startProgress, startProgress, h.entry]
    simp only [hstart, collect_of_twins h.blocks, bind, Except.bind]
    have hdrain := h.drain_ok_iff initial bound bound.toNat (g.startProgress initial memory)
    cases hf : f.drain c initial bound bound.toNat (g.startProgress initial memory) with
    | ok p => rw [(hdrain p).1 hf]
    | error e =>
      cases hg : g.drain c initial bound bound.toNat (g.startProgress initial memory) with
      | ok p =>
        rw [(hdrain p).2 hg] at hf
        cases hf
      | error e' => exact iff_of_false (fun h => by cases h) fun h => by cases h

end Parallel

-- ============================================================================
-- Functions that differ in sendable values
-- ============================================================================

/-- Functions of one domain with the same blocks and jumps that differ in sendable
    values only. -/
structure Resembles (f g : Func) : Prop where
  domain : f.domain = g.domain
  entry : f.entry = g.entry
  params : visible f.params = visible g.params
  blocks : List.Forall₂ (fun x y => x.1 = y.1 ∧ x.2.Resembles y.2) f.blocks.entries g.blocks.entries

section Resembles

theorem Resembles.ops (h : f.Resembles g) :
    List.Forall₂ Op.Resembles (f.blocks.values.flatMap Block.ops)
      (g.blocks.values.flatMap Block.ops) := by
  have hvalues : List.Forall₂ Block.Resembles f.blocks.values g.blocks.values := by
    rw [Table.values, Table.values, List.forall₂_map_left_iff, List.forall₂_map_right_iff]
    exact h.blocks.imp fun _ _ hxy => hxy.2
  exact List.rel_flatMap hvalues fun _ _ hb => hb.ops

/-- What is defined as non-sendable is the same in both. -/
theorem Resembles.definitions (h : f.Resembles g) :
    visible f.definitions = visible g.definitions := by
  have hdests : ∀ {l l' : List Op}, List.Forall₂ Op.Resembles l l' →
      visible (l.filterMap Op.dest?) = visible (l'.filterMap Op.dest?) := by
    have hcons : ∀ (op : Op) (l : List Op),
        (op :: l).filterMap Op.dest? = op.dest?.toList ++ l.filterMap Op.dest? := by
      intro op l
      rw [List.filterMap_cons]
      cases op.dest? with
      | none => rfl
      | some d => rfl
    intro l l' hl
    induction hl with
    | nil => rfl
    | cons hop _ ih => rw [hcons, hcons, visible_append, visible_append, hop.dest, ih]
  rw [Func.definitions, Func.definitions, ← List.filterMap_flatMap, ← List.filterMap_flatMap,
    visible_append, visible_append, h.params, hdests h.ops]

/-- Sendable values do not count for the bound. -/
theorem Resembles.iterationBound (h : f.Resembles g) : f.iterationBound = g.iterationBound := by
  have hnames : f.regionNames = g.regionNames := by
    have hvisible := h.definitions
    rw [visible, visible] at hvisible
    rw [regionNames, hvisible, regionNames]
  have hcount : ∀ (p : Op → Bool), (∀ x y, Op.Resembles x y → p x = p y) →
      ∀ {l l' : List Op}, List.Forall₂ Op.Resembles l l' → l.countP p = l'.countP p := by
    intro p hp l l' hl
    induction hl with
    | nil => rfl
    | cons hop _ ih => rw [List.countP_cons, List.countP_cons, ih, hp _ _ hop]
  have hcalls : f.callCount = g.callCount := by
    refine hcount _ ?_ h.ops
    intro x y hxy
    cases hxy with
    | _ => rfl
  have hsize : f.blocks.size = g.blocks.size := h.blocks.length_eq
  rw [Func.iterationBound, Func.iterationBound, hnames, hcalls, hsize]

theorem Resembles.parallel (h : f.Resembles g) (hc : c.Declared) (hf : f.validate = .ok ())
    (hg : g.validate = .ok ()) (hfu : Uniform f.values) (hgu : Uniform g.values) :
    Parallel c f g where
  entry := h.entry
  initial := by
    have hparams := h.params
    rw [visible, visible] at hparams
    rw [Regions.entry, Regions.entry, hparams]
  blocks := by
    rw [List.forall₂_iff_get]
    refine ⟨h.blocks.length_eq, ?_⟩
    intro i hi hi'
    obtain ⟨hname, hblock⟩ := (List.forall₂_iff_get.1 h.blocks).2 i hi hi'
    have hat : f.At (f.blocks.entries.get ⟨i, hi⟩).1 i (f.blocks.entries.get ⟨i, hi⟩).2 :=
      List.getElem?_eq_getElem hi
    have hat' : g.At (g.blocks.entries.get ⟨i, hi'⟩).1 i (g.blocks.entries.get ⟨i, hi'⟩).2 :=
      List.getElem?_eq_getElem hi'
    have hlabel : (f.blocks.entries.get ⟨i, hi⟩).2.name = (g.blocks.entries.get ⟨i, hi'⟩).2.name := by
      rw [name_of_validate hf hat, name_of_validate hg hat', hname]
    refine ⟨hname, hblock.successors, ?_⟩
    intro watch memory s index
    exact passBlock_congr hc h.domain hblock hlabel (uniform_ops hfu hat) (uniform_ops hgu hat')
      watch memory s index

/-- Functions that resemble each other have one analysis, or both diverge. -/
theorem Resembles.solve_cases (h : f.Resembles g) (hc : c.Declared) (hf : f.validate = .ok ())
    (hg : g.validate = .ok ()) (hfu : Uniform f.values) (hgu : Uniform g.values) (memory : σ)
    (bound : Int) :
    (∃ a m, f.solve c memory bound = .ok (a, m) ∧ g.solve c memory bound = .ok (a, m)) ∨
      (f.solve c memory bound = .error (.diverged f.name bound) ∧
        g.solve c memory bound = .error (.diverged g.name bound)) := by
  have hiff := (h.parallel hc hf hg hfu hgu).solve_ok_iff memory bound
  rcases solve_sound hf c memory bound with ⟨⟨a, m⟩, hok⟩ | hdiverged
  · exact .inl ⟨a, m, hok, (hiff (a, m)).1 hok⟩
  · rcases solve_sound hg c memory bound with ⟨r, hok⟩ | hdiverged'
    · have hok' := (hiff r).2 hok
      rw [hdiverged] at hok'
      cases hok'
    · exact .inr ⟨hdiverged, hdiverged'⟩

end Resembles

/-- Functions that passed validation and differ in sendable values only have the
    same bound and the same analysis: both end with equal evaluations, states and
    accesses, or both are stopped. Hence checking them gives the same diagnostics. -/
theorem solve_ignores_sendable {f g : Func} (hf : f.validate = .ok ()) (hg : g.validate = .ok ())
    (hfu : Uniform f.values) (hgu : Uniform g.values) (h : f.Resembles g) {c : Classifier σ}
    (hc : c.Declared) (memory : σ) (bound : Option Int) :
    f.iterationBound = g.iterationBound ∧
    ((∃ a m, f.solve c memory (bound.getD f.iterationBound) = .ok (a, m) ∧
        g.solve c memory (bound.getD g.iterationBound) = .ok (a, m)) ∨
      (f.solve c memory (bound.getD f.iterationBound) =
          .error (.diverged f.name (bound.getD f.iterationBound)) ∧
        g.solve c memory (bound.getD g.iterationBound) =
          .error (.diverged g.name (bound.getD g.iterationBound)))) ∧
    ∀ config : Config,
      (∃ r r' m, f.check config c memory bound = .ok (r, m) ∧
        g.check config c memory bound = .ok (r', m) ∧ r.diagnostics = r'.diagnostics ∧
        r.bySite = r'.bySite ∧ r.analysis = r'.analysis) ∨
      (f.check config c memory bound =
          .error (.obstacle (.diverged f.name (bound.getD f.iterationBound))) ∧
        g.check config c memory bound =
          .error (.obstacle (.diverged g.name (bound.getD g.iterationBound)))) := by
  have hbound := h.iterationBound
  have hsolve := h.solve_cases hc hf hg hfu hgu memory (bound.getD f.iterationBound)
  refine ⟨hbound, ?_, ?_⟩
  · rw [← hbound]
    exact hsolve
  · intro config
    cases henabled : config.enabled with
    | false =>
      refine .inl ⟨{ function := f.name }, { function := g.name }, memory, ?_, ?_, rfl, rfl, rfl⟩
      · simp [check, henabled]
      · simp [check, henabled]
    | true =>
      rcases hsolve with ⟨a, m, hok, hok'⟩ | ⟨hdiverged, hdiverged'⟩
      · refine .inl ⟨f.resultOf config.severity a, g.resultOf config.severity a, m, ?_, ?_, rfl, rfl,
          rfl⟩
        · simp only [check, henabled, if_true, hf, hok]
        · simp only [check, henabled, if_true, hg, ← hbound, hok']
      · refine .inr ⟨?_, ?_⟩
        · simp only [check, henabled, if_true, hf, hdiverged]
        · simp only [check, henabled, if_true, hg, ← hbound, hdiverged']

/-- The loop that sends a value at every turn, which now also counts: a counter is
    passed in, built into the value, handed over with it, and looked at. -/
def countingLoop : Func :=
  let box : TypeInfo := ⟨"Box", false⟩
  let int : TypeInfo := ⟨"Int", true⟩
  { name := "count"
    params := [⟨"n", int⟩, ⟨"x", box⟩]
    blocks := Table.ofList
      [("entry", ⟨"entry", [], some (.goto "loop" {})⟩),
       ("loop", ⟨"loop",
         [.init ⟨"y", box⟩ [⟨"x", box⟩, ⟨"n", int⟩] {},
          .call { callee := "send", args := [⟨"n", int⟩, ⟨"y", box⟩], dest := some ⟨"n", int⟩
                  receiver := some ⟨"n", int⟩, domain := some "worker" }],
         some (.branch ["loop", "done"] (some ⟨"n", int⟩) {})⟩),
       ("done", ⟨"done", [.use ⟨"x", box⟩ .read {}], some (.ret (some ⟨"n", int⟩) {})⟩)] }

theorem sendingLoop_resembles : sendingLoop.Resembles countingLoop where
  domain := rfl
  entry := rfl
  params := by decide +kernel
  blocks := by
    refine .cons ⟨rfl, .nil, .some ⟨rfl, rfl, rfl⟩⟩ (.cons ⟨rfl, ?_, .some ⟨rfl, rfl, rfl⟩⟩
      (.cons ⟨rfl, ?_, .some ⟨rfl, rfl, rfl⟩⟩ .nil))
    · exact .cons (.init rfl rfl) (.cons (.call rfl rfl rfl rfl rfl rfl rfl) .nil)
    · exact .cons (.use rfl) .nil

/-- Counting changes nothing. -/
theorem countingLoop_ignores_sendable : sendingLoop.validate = .ok () ∧
    countingLoop.validate = .ok () ∧ Uniform sendingLoop.values ∧ Uniform countingLoop.values ∧
    ∃ a, sendingLoop.solve Classifier.asWritten () 40 = .ok (a, ()) ∧
      countingLoop.solve Classifier.asWritten () 40 = .ok (a, ()) := by
  have hf : sendingLoop.validate = .ok () := by decide +kernel
  have hg : countingLoop.validate = .ok () := by decide +kernel
  have hfu : Uniform sendingLoop.values := by decide +kernel
  have hgu : Uniform countingLoop.values := by decide +kernel
  refine ⟨hf, hg, hfu, hgu, ?_⟩
  obtain ⟨⟨a, _⟩, ha⟩ := sendingLoop_solved
  rcases (solve_ignores_sendable hf hg hfu hgu sendingLoop_resembles .asWritten () (some 40)).2.1 with
    ⟨a', m, hok, hok'⟩ | ⟨hdiverged, -⟩
  · exact ⟨a', hok, hok'⟩
  · have hno := ha.symm.trans hdiverged
    cases hno

end Func

end Sendability
