/-
  What a function that was read from a text is like.

  Building a function takes two passes: one collects a type for every name that
  is a parameter or is assigned to, the other looks every value up among them.
  `scope_ok` says what the first pass collects: the names are the parameters
  and the destinations, and a type that is found once is never changed. So all
  values of the function have the type of the collection (`Func.TypedBy`), and
  validation, which collects the types again from the definitions, can find fault
  with jump targets only (`parse_meets_validation`).
-/

import Mathlib.Data.List.Forall2
import Sendability.Proofs.Transparency
import Sendability.Source.Program

namespace Sendability.Source

-- ============================================================================
-- Collecting types
-- ============================================================================

/-- The destination of a statement. -/
def Stmt.dest? : Stmt → Option Token
  | .assign d _ _ => some d
  | .store .. | .call _ | .use _ | .write _ => none

/-- The names that some statements assign to. -/
def assigned (l : List (Located Stmt)) : List Name :=
  l.filterMap fun s => s.node.dest?.map Token.text

/-- The names that some copies define. -/
def copied (l : List PendingCopy) : List Name := l.map fun c => c.dest.text

/-- The scope `t` keeps the types of `s` and has some names in addition. -/
structure Scope.Adds (s t : Scope) (names : List Name) : Prop where
  keeps : ∀ n type, s.get? n = some type → t.get? n = some type
  mem : ∀ n, n ∈ t.keys ↔ n ∈ s.keys ∨ n ∈ names

namespace Scope

variable {s t u : Scope} {l l' : List Name}

theorem Adds.refl (s : Scope) : s.Adds s [] := ⟨fun _ _ h => h, by simp⟩

theorem Adds.trans (h : s.Adds t l) (h' : t.Adds u l') : s.Adds u (l ++ l') where
  keeps n type hn := h'.keeps n type (h.keeps n type hn)
  mem n := by rw [h'.mem, h.mem, List.mem_append, or_assoc]

theorem Adds.congr (h : s.Adds t l) (hl : ∀ n, n ∈ l ↔ n ∈ l') : s.Adds t l' where
  keeps := h.keeps
  mem n := by rw [h.mem, hl]

theorem mem_keys_insert (s : Scope) (k n : Name) (type : TypeInfo) :
    n ∈ (s.insert k type).keys ↔ n ∈ s.keys ∨ n = k := by
  rw [Table.mem_keys_iff, Table.get?_insert, Table.mem_keys_iff]
  by_cases h : k = n
  · simp [h]
  · simp [h, Ne.symm h]

/-- A definition that succeeds does not change a type. -/
theorem define_ok {token : Token} {type : TypeInfo} (h : s.define token type = .ok t) :
    s.Adds t [token.text] ∧ t.get? token.text = some type := by
  have heq : t = s.insert token.text type ∧ ∀ was, s.get? token.text = some was → was = type := by
    rw [define] at h
    split at h
    · rename_i was hwas
      split at h
      · rename_i htype
        cases h
        exact ⟨rfl, fun was' hwas' => (Option.some.inj (hwas.symm.trans hwas')).symm.trans htype⟩
      · cases h
    · rename_i hnone
      cases h
      exact ⟨rfl, fun was hwas => by simp [hnone] at hwas⟩
  obtain ⟨rfl, hsame⟩ := heq
  refine ⟨⟨?_, ?_⟩, Table.get?_insert_self _ _ _⟩
  · intro n was hn
    rw [Table.get?_insert]
    split
    · rename_i hk
      rw [hsame was (hk ▸ hn)]
    · exact hn
  · intro n
    rw [mem_keys_insert, List.mem_singleton]

end Scope

variable {types : Types} {scope out : Scope} {pending waiting : List PendingCopy}

/-- An assignment defines its destination or leaves a copy that will. -/
theorem defineAssign_adds {dest : Token} {written : Option Token} {rhs : Rhs}
    (h : defineAssign types scope pending dest written rhs = .ok (out, waiting)) :
    ∃ names, scope.Adds out names ∧
      ∀ n, n ∈ names ∨ n ∈ copied waiting ↔ n ∈ copied pending ∨ n = dest.text := by
  -- a definition leaves the waiting copies as they are
  have hadd : ∀ type, (do let s ← scope.define dest type; return (s, pending) :
      Except Fault (Scope × List PendingCopy)) = .ok (out, waiting) →
      ∃ names, scope.Adds out names ∧
        ∀ n, n ∈ names ∨ n ∈ copied waiting ↔ n ∈ copied pending ∨ n = dest.text := by
    intro type htype
    obtain ⟨s, hdefine, hs⟩ := ok_of_bind htype
    cases hs
    refine ⟨[dest.text], (Scope.define_ok hdefine).1, ?_⟩
    intro n
    rw [List.mem_singleton, or_comm]
  cases written with
  | none =>
    cases rhs with
    | init t args => exact hadd _ h
    | copy src =>
      cases h
      refine ⟨[], .refl scope, ?_⟩
      intro n
      simp [copied]
    | closure captures => exact hadd _ h
    | load base field => cases h
    | call e => cases h
  | some w =>
    cases rhs with
    | init t args =>
      simp only [defineAssign, Option.map_some] at h
      split at h
      · exact hadd _ h
      · cases h
    | copy src => exact hadd _ h
    | closure captures => exact hadd _ h
    | load base field => exact hadd _ h
    | call e => exact hadd _ h

theorem defineStmts_adds {l : List (Located Stmt)}
    (h : defineStmts types scope pending l = .ok (out, waiting)) :
    ∃ names, scope.Adds out names ∧
      ∀ n, n ∈ names ∨ n ∈ copied waiting ↔ n ∈ copied pending ∨ n ∈ assigned l := by
  induction l generalizing scope pending with
  | nil =>
    cases h
    exact ⟨[], .refl _, by simp [assigned]⟩
  | cons s rest ih =>
    rw [defineStmts] at h
    -- a statement without a destination defines nothing
    have hskip : s.node.dest? = none → defineStmts types scope pending rest = .ok (out, waiting) →
        ∃ names, scope.Adds out names ∧
          ∀ n, n ∈ names ∨ n ∈ copied waiting ↔ n ∈ copied pending ∨ n ∈ assigned (s :: rest) := by
      intro hnone hrest
      simpa [assigned, hnone] using ih hrest
    cases hs : s.node with
    | assign dest written rhs =>
      rw [hs] at h
      obtain ⟨⟨mid, waiting'⟩, hassign, hrest⟩ := ok_of_bind h
      obtain ⟨names, hadds, hnames⟩ := defineAssign_adds hassign
      obtain ⟨names', hadds', hnames'⟩ := ih hrest
      refine ⟨names ++ names', hadds.trans hadds', ?_⟩
      intro n
      have hhead : n ∈ assigned (s :: rest) ↔ n = dest.text ∨ n ∈ assigned rest := by
        simp [assigned, hs, Stmt.dest?]
      rw [List.mem_append, or_assoc, hnames', ← or_assoc, hnames, hhead, or_assoc]
    | store base field value =>
      rw [hs] at h
      exact hskip (by rw [hs]; rfl) h
    | call e =>
      rw [hs] at h
      exact hskip (by rw [hs]; rfl) h
    | use v =>
      rw [hs] at h
      exact hskip (by rw [hs]; rfl) h
    | write v =>
      rw [hs] at h
      exact hskip (by rw [hs]; rfl) h

theorem resolveRound_adds (h : resolveRound scope pending = .ok (out, waiting)) :
    ∃ names, scope.Adds out names ∧ ∀ n, n ∈ names ∨ n ∈ copied waiting ↔ n ∈ copied pending := by
  induction pending generalizing scope waiting with
  | nil =>
    cases h
    exact ⟨[], .refl _, by simp⟩
  | cons c rest ih =>
    have hcons : ∀ l, copied (c :: l) = c.dest.text :: copied l := fun _ => rfl
    rw [resolveRound] at h
    split at h
    · obtain ⟨mid, hdefine, hrest⟩ := ok_of_bind h
      obtain ⟨names, hadds, hnames⟩ := ih hrest
      refine ⟨[c.dest.text] ++ names, (Scope.define_ok hdefine).1.trans hadds, ?_⟩
      intro n
      rw [List.mem_append, List.mem_singleton, or_assoc, hnames, hcons, List.mem_cons]
    · obtain ⟨⟨mid, waiting'⟩, hrest, hout⟩ := ok_of_bind h
      cases hout
      obtain ⟨names, hadds, hnames⟩ := ih hrest
      refine ⟨names, hadds, ?_⟩
      intro n
      rw [hcons, hcons, List.mem_cons, List.mem_cons, ← hnames, or_left_comm]

theorem resolveCopies_adds (h : resolveCopies scope pending = .ok out) :
    scope.Adds out (copied pending) := by
  induction hn : pending.length using Nat.strong_induction_on generalizing scope pending with
  | h n ih =>
    rw [resolveCopies] at h
    split at h
    · cases h
    · rename_i s hround
      cases h
      obtain ⟨names, hadds, hnames⟩ := resolveRound_adds hround
      exact hadds.congr fun n => by simpa [copied] using hnames n
    · rename_i s c waiting hround
      split at h
      · rename_i hlt
        obtain ⟨names, hadds, hnames⟩ := resolveRound_adds hround
        have hrest := ih (c :: waiting).length (by simpa [hn] using hlt) h rfl
        exact (hadds.trans hrest).congr fun n => by rw [List.mem_append, hnames]
      · cases h

theorem defineParams_adds {ps : List ParamTree} {vs : List Value}
    (h : defineParams types scope ps = .ok (out, vs)) :
    scope.Adds out (vs.map Value.name) ∧ ∀ v ∈ vs, out.get? v.name = some v.type := by
  induction ps generalizing scope vs with
  | nil =>
    cases h
    exact ⟨.refl _, by simp⟩
  | cons p rest ih =>
    rw [defineParams] at h
    split at h
    · cases h
    · obtain ⟨mid, hdefine, h⟩ := ok_of_bind h
      obtain ⟨⟨last, ws⟩, hrest, hout⟩ := ok_of_bind h
      cases hout
      obtain ⟨hadds, htype⟩ := Scope.define_ok hdefine
      obtain ⟨hadds', htypes⟩ := ih hrest
      refine ⟨hadds.trans hadds', ?_⟩
      intro v hv
      rcases List.mem_cons.1 hv with rfl | hv
      · exact hadds'.keeps _ _ htype
      · exact htypes v hv

/-- The collected names are the parameters and the destinations, and the
    parameters have the collected types. -/
theorem scope_ok {f : FuncTree} {params : List Value} (h : f.scope types = .ok (params, scope)) :
    (∀ v ∈ params, scope.get? v.name = some v.type) ∧
      ∀ n, n ∈ scope.keys ↔
        n ∈ params.map Value.name ∨ n ∈ assigned (f.blocks.flatMap BlockTree.stmts) := by
  obtain ⟨⟨s, ps⟩, hparams, h⟩ := ok_of_bind h
  obtain ⟨⟨s', waiting⟩, hstmts, h⟩ := ok_of_bind h
  obtain ⟨s'', hcopies, h⟩ := ok_of_bind h
  cases h
  obtain ⟨hadds, htypes⟩ := defineParams_adds hparams
  obtain ⟨names, hadds', hnames⟩ := defineStmts_adds hstmts
  have hadds'' := resolveCopies_adds hcopies
  refine ⟨?_, ?_⟩
  · intro v hv
    exact hadds''.keeps _ _ (hadds'.keeps _ _ (htypes v hv))
  · intro n
    have hall : n ∈ names ∨ n ∈ copied waiting ↔
        n ∈ assigned (f.blocks.flatMap BlockTree.stmts) := by
      simpa [copied] using hnames n
    have hempty : n ∉ ({} : Scope).keys := by simp [Table.keys]
    rw [hadds''.mem, hadds'.mem, hadds.mem, or_assoc, or_assoc, hall, or_iff_right hempty]

-- ============================================================================
-- Scopes within known types
-- ============================================================================

/-- The collected types are among the given ones. -/
def Scope.Within (scope : Scope) (known : Name → Option TypeInfo) : Prop :=
  ∀ n type, scope.get? n = some type → known n = some type

variable {known : Name → Option TypeInfo}

/-- A definition of a known type succeeds. -/
theorem define_of_known (h : scope.Within known) {t : Token} {type : TypeInfo}
    (ht : known t.text = some type) :
    ∃ out, scope.define t type = .ok out ∧ out.Within known := by
  refine ⟨scope.insert t.text type, ?_, ?_⟩
  · rw [Scope.define]
    cases hget : scope.get? t.text with
    | none => rfl
    | some was =>
      have hwas : was = type := Option.some.inj ((h _ _ hget).symm.trans ht)
      simp only [hwas, if_true]
  · intro n type' hn
    rw [Table.get?_insert] at hn
    split at hn
    · rename_i heq
      rw [← heq, ht, hn]
    · exact h n type' hn

theorem defineParams_of_known {ps : List ParamTree} {vs : List Value}
    (hps : List.Forall₂ (fun p v => p.name.text = v.name ∧ types.typeOf p.type.text = v.type) ps vs)
    (hknown : ∀ v ∈ vs, known v.name = some v.type) (hnodup : (vs.map Value.name).Nodup)
    (hfresh : ∀ v ∈ vs, v.name ∉ scope.keys) (h : scope.Within known) :
    ∃ out, defineParams types scope ps = .ok (out, vs) ∧ out.Within known := by
  induction hps generalizing scope with
  | nil => exact ⟨scope, rfl, h⟩
  | @cons p v ps vs hp _ ih =>
    obtain ⟨hname, htype⟩ := hp
    rw [List.forall_mem_cons] at hknown hfresh
    rw [List.map_cons, List.nodup_cons] at hnodup
    obtain ⟨mid, hdefine, hmid⟩ := define_of_known h (hname ▸ hknown.1)
    have hfresh' : ∀ w ∈ vs, w.name ∉ mid.keys := by
      intro w hw hmem
      rcases ((Scope.define_ok hdefine).1.mem w.name).1 hmem with hmem | hmem
      · exact hfresh.2 w hw hmem
      · rw [List.mem_singleton, hname] at hmem
        exact hnodup.1 (hmem ▸ List.mem_map_of_mem hw)
    obtain ⟨out, hrest, hout⟩ := ih hknown.2 hnodup.2 hfresh' hmid
    refine ⟨out, ?_, hout⟩
    rw [defineParams, if_neg (by rw [Table.contains_iff, hname]; exact hfresh.1), htype, hname]
    simp only [hdefine, bind, Except.bind, hrest]
    rfl

-- ============================================================================
-- Looking values up
-- ============================================================================

/-- A value has the collected type. -/
def Scope.Has (scope : Scope) (v : Value) : Prop := scope.get? v.name = some v.type

/-- A token names a value of the collected type. -/
structure Scope.Names (scope : Scope) (t : Token) (v : Value) : Prop where
  text : t.text = v.name
  has : scope.Has v

theorem value_ok_iff {t : Token} {v : Value} : scope.value t = .ok v ↔ scope.Names t v := by
  rw [Scope.value]
  refine ⟨?_, ?_⟩
  · intro h
    split at h
    · rename_i type htype
      cases h
      exact ⟨rfl, htype⟩
    · cases h
  · rintro ⟨htext, hhas⟩
    rw [Scope.Has, ← htext] at hhas
    rw [hhas]
    obtain ⟨name, type⟩ := v
    cases htext
    rfl

theorem valuesOf_ok_iff {ts : List Token} {vs : List Value} :
    scope.valuesOf ts = .ok vs ↔ List.Forall₂ scope.Names ts vs := by
  induction ts generalizing vs with
  | nil =>
    rw [Scope.valuesOf, List.forall₂_nil_left_iff]
    exact ⟨fun h => (Except.ok.inj h).symm, fun h => by rw [h]⟩
  | cons t ts ih =>
    rw [Scope.valuesOf, List.forall₂_cons_left_iff]
    refine ⟨?_, ?_⟩
    · intro h
      obtain ⟨v, hv, h⟩ := ok_of_bind h
      obtain ⟨ws, hws, h⟩ := ok_of_bind h
      cases h
      exact ⟨v, ws, value_ok_iff.1 hv, ih.1 hws, rfl⟩
    · rintro ⟨v, ws, hv, hws, rfl⟩
      rw [value_ok_iff.2 hv, ih.2 hws]
      rfl

theorem value?_ok_iff {t : Option Token} {v : Option Value} :
    scope.value? t = .ok v ↔ Option.Rel scope.Names t v := by
  cases t with
  | none =>
    cases v with
    | none => exact iff_of_true rfl .none
    | some v => exact iff_of_false (fun h => by cases h) fun h => by cases h
  | some t =>
    refine ⟨?_, ?_⟩
    · intro h
      obtain ⟨w, hw, h⟩ := ok_of_bind h
      cases h
      exact .some (value_ok_iff.1 hw)
    · intro h
      cases h with
      | some hv =>
        rw [Scope.value?, value_ok_iff.2 hv]
        rfl

-- ============================================================================
-- What statements mean
-- ============================================================================

/-- The call that an expression means. -/
structure CallExpr.Means (scope : Scope) (loc : Span) (dest : Option Value) (e : CallExpr)
    (c : Call) : Prop where
  callee : c.callee = Text.joined "." ((e.callee :: e.fields).map Token.text)
  args : List.Forall₂ scope.Names e.args c.args
  dest : c.dest = dest
  receiver : c.receiver = if e.fields.isEmpty then none else (scope.value e.callee).toOption
  domain : c.domain = attrDomain e.attrs
  spawns : c.spawns = e.attrs.contains .spawn
  loc : c.loc = loc

/-- The operation that a statement means. -/
inductive Stmt.Means (scope : Scope) (loc : Span) : Stmt → Op → Prop
  | init {d t : Token} {w : Option Token} {ts : List Token} {dest : Value} {args : List Value} :
      scope.Names d dest → List.Forall₂ scope.Names ts args →
      Means scope loc (.assign d w (.init t ts)) (.init dest args loc)
  | load {d b field : Token} {w : Option Token} {dest base : Value} :
      scope.Names d dest → scope.Names b base →
      Means scope loc (.assign d w (.load b field)) (.load dest base field.text loc)
  | copy {d t : Token} {w : Option Token} {dest src : Value} :
      scope.Names d dest → scope.Names t src →
      Means scope loc (.assign d w (.copy t)) (.copy dest src loc)
  | closure {d : Token} {w : Option Token} {ts : List Token} {dest : Value} {captures : List Value} :
      scope.Names d dest → List.Forall₂ scope.Names ts captures →
      Means scope loc (.assign d w (.closure ts)) (.closure dest captures loc)
  | result {d : Token} {w : Option Token} {e : CallExpr} {dest : Value} {c : Call} :
      scope.Names d dest → e.Means scope loc (some dest) c →
      Means scope loc (.assign d w (.call e)) (.call c)
  | store {b field t : Token} {base value : Value} :
      scope.Names b base → scope.Names t value →
      Means scope loc (.store b field t) (.store base field.text value loc)
  | call {e : CallExpr} {c : Call} : e.Means scope loc none c → Means scope loc (.call e) (.call c)
  | use {t : Token} {v : Value} : scope.Names t v → Means scope loc (.use t) (.use v .read loc)
  | write {t : Token} {v : Value} : scope.Names t v → Means scope loc (.write t) (.use v .write loc)

/-- The terminator that the end of a block means. -/
inductive Exit.Means (scope : Scope) (loc : Span) : Exit → Terminator → Prop
  | goto (t : Token) : Means scope loc (.goto t) (.goto (labelName t) loc)
  | branch {c : Option Token} {ts : List Token} {cond : Option Value} :
      Option.Rel scope.Names c cond →
      Means scope loc (.branch c ts) (.branch (ts.map labelName) cond loc)
  | ret {t : Option Token} {value : Option Value} :
      Option.Rel scope.Names t value → Means scope loc (.ret t) (.ret value loc)
  | throw {t handler : Option Token} {value : Option Value} :
      Option.Rel scope.Names t value →
      Means scope loc (.throw t handler) (.throw value (handler.map labelName) loc)
  | unreachable : Means scope loc .unreachable (.unreachable loc)

variable {file : Option Text} {loc : Span}

theorem buildCall_ok_iff {e : CallExpr} {dest : Option Value} {c : Call} :
    buildCall scope e dest loc = .ok c ↔ e.Means scope loc dest c := by
  rw [buildCall]
  refine ⟨?_, ?_⟩
  · intro h
    obtain ⟨args, hargs, h⟩ := ok_of_bind h
    cases h
    exact ⟨rfl, valuesOf_ok_iff.1 hargs, rfl, rfl, rfl, rfl, rfl⟩
  · rintro ⟨hcallee, hargs, hdest, hreceiver, hdomain, hspawns, hloc⟩
    rw [valuesOf_ok_iff.2 hargs]
    obtain ⟨callee, args, cdest, receiver, domain, spawns, cloc⟩ := c
    cases hcallee
    cases hdest
    cases hreceiver
    cases hdomain
    cases hspawns
    cases hloc
    rfl

theorem buildOp_ok_iff {s : Located Stmt} {op : Op} :
    buildOp file scope s = .ok op ↔ s.node.Means scope (Fault.nodeSpan file s.start s.stop) op := by
  obtain ⟨start, stop, stmt⟩ := s
  refine ⟨?_, ?_⟩
  · intro h
    cases stmt with
    | assign d w rhs =>
      obtain ⟨dest, hdest, h⟩ := ok_of_bind h
      have hd := value_ok_iff.1 hdest
      cases rhs with
      | init t ts =>
        obtain ⟨args, hargs, h⟩ := ok_of_bind h
        cases h
        exact .init hd (valuesOf_ok_iff.1 hargs)
      | load b field =>
        obtain ⟨base, hbase, h⟩ := ok_of_bind h
        cases h
        exact .load hd (value_ok_iff.1 hbase)
      | copy t =>
        obtain ⟨src, hsrc, h⟩ := ok_of_bind h
        cases h
        exact .copy hd (value_ok_iff.1 hsrc)
      | closure ts =>
        obtain ⟨captures, hcaptures, h⟩ := ok_of_bind h
        cases h
        exact .closure hd (valuesOf_ok_iff.1 hcaptures)
      | call e =>
        obtain ⟨c, hc, h⟩ := ok_of_bind h
        cases h
        exact .result hd (buildCall_ok_iff.1 hc)
    | store b field t =>
      obtain ⟨base, hbase, h⟩ := ok_of_bind h
      obtain ⟨value, hvalue, h⟩ := ok_of_bind h
      cases h
      exact .store (value_ok_iff.1 hbase) (value_ok_iff.1 hvalue)
    | call e =>
      obtain ⟨c, hc, h⟩ := ok_of_bind h
      cases h
      exact .call (buildCall_ok_iff.1 hc)
    | use t =>
      obtain ⟨v, hv, h⟩ := ok_of_bind h
      cases h
      exact .use (value_ok_iff.1 hv)
    | write t =>
      obtain ⟨v, hv, h⟩ := ok_of_bind h
      cases h
      exact .write (value_ok_iff.1 hv)
  · intro h
    cases h with
    | init hd hargs =>
      simp only [buildOp, value_ok_iff.2 hd, valuesOf_ok_iff.2 hargs]
      rfl
    | load hd hb =>
      simp only [buildOp, value_ok_iff.2 hd, value_ok_iff.2 hb]
      rfl
    | copy hd ht =>
      simp only [buildOp, value_ok_iff.2 hd, value_ok_iff.2 ht]
      rfl
    | closure hd hts =>
      simp only [buildOp, value_ok_iff.2 hd, valuesOf_ok_iff.2 hts]
      rfl
    | @result d w e dest c hd hc =>
      have hcall : buildCall scope e (some dest) (Fault.nodeSpan file start stop) = .ok c :=
        buildCall_ok_iff.2 hc
      simp only [buildOp, value_ok_iff.2 hd, hcall, bind, Except.bind]
      rfl
    | store hb ht =>
      simp only [buildOp, value_ok_iff.2 hb, value_ok_iff.2 ht]
      rfl
    | @call e c hc =>
      have hcall : buildCall scope e none (Fault.nodeSpan file start stop) = .ok c :=
        buildCall_ok_iff.2 hc
      simp only [buildOp, hcall]
      rfl
    | use ht =>
      simp only [buildOp, value_ok_iff.2 ht]
      rfl
    | write ht =>
      simp only [buildOp, value_ok_iff.2 ht]
      rfl

theorem buildOps_ok_iff {l : List (Located Stmt)} {ops : List Op} :
    buildOps file scope l = .ok ops ↔
      List.Forall₂ (fun s op => s.node.Means scope (Fault.nodeSpan file s.start s.stop) op) l ops := by
  induction l generalizing ops with
  | nil =>
    rw [buildOps, List.forall₂_nil_left_iff]
    exact ⟨fun h => (Except.ok.inj h).symm, fun h => by rw [h]⟩
  | cons s l ih =>
    rw [buildOps, List.forall₂_cons_left_iff]
    refine ⟨?_, ?_⟩
    · intro h
      obtain ⟨op, hop, h⟩ := ok_of_bind h
      obtain ⟨ops', hops, h⟩ := ok_of_bind h
      cases h
      exact ⟨op, ops', buildOp_ok_iff.1 hop, ih.1 hops, rfl⟩
    · rintro ⟨op, ops', hop, hops, rfl⟩
      rw [buildOp_ok_iff.2 hop, ih.2 hops]
      rfl

theorem buildExit_ok_iff {e : Located Exit} {t : Terminator} :
    buildExit file scope e = .ok t ↔ e.node.Means scope (Fault.nodeSpan file e.start e.stop) t := by
  obtain ⟨start, stop, exit⟩ := e
  refine ⟨?_, ?_⟩
  · intro h
    cases exit with
    | goto target =>
      cases h
      exact .goto target
    | branch c ts =>
      obtain ⟨cond, hcond, h⟩ := ok_of_bind h
      cases h
      exact .branch (value?_ok_iff.1 hcond)
    | ret t =>
      obtain ⟨value, hvalue, h⟩ := ok_of_bind h
      cases h
      exact .ret (value?_ok_iff.1 hvalue)
    | throw t handler =>
      obtain ⟨value, hvalue, h⟩ := ok_of_bind h
      cases h
      exact .throw (value?_ok_iff.1 hvalue)
    | unreachable =>
      cases h
      exact .unreachable
  · intro h
    cases h with
    | goto target => rfl
    | branch hc =>
      simp only [buildExit, value?_ok_iff.2 hc]
      rfl
    | ret ht =>
      simp only [buildExit, value?_ok_iff.2 ht]
      rfl
    | throw ht =>
      simp only [buildExit, value?_ok_iff.2 ht]
      rfl
    | unreachable => rfl

-- ============================================================================
-- What blocks and functions mean
-- ============================================================================

/-- The entry of a table of blocks that a labelled block means. -/
structure BlockTree.Means (file : Option Text) (scope : Scope) (tree : BlockTree)
    (e : Name × Block) : Prop where
  key : e.1 = labelName tree.label
  name : e.2.name = e.1
  ops : List.Forall₂ (fun s op => s.node.Means scope (Fault.nodeSpan file s.start s.stop) op)
    tree.stmts e.2.ops
  terminator : ∃ t, e.2.terminator = some t ∧
    tree.exit.node.Means scope (Fault.nodeSpan file tree.exit.start tree.exit.stop) t

/-- A new key goes last. -/
theorem entries_insert {α : Type} {t : Table Name α} {k : Name} (h : k ∉ t.keys) (a : α) :
    (t.insert k a).entries = t.entries ++ [(k, a)] := by
  obtain ⟨l, hl⟩ := t
  simp only [Table.keys, Table.insert] at h ⊢
  clear hl
  induction l with
  | nil => rfl
  | cons e l ih =>
    obtain ⟨k', b⟩ := e
    rw [List.map_cons, List.mem_cons, not_or] at h
    rw [Table.enter, if_neg (Ne.symm h.1), ih h.2]
    rfl

/-- The blocks are entered in textual order. -/
theorem buildBlocks_ok_iff {function : Name} {trees : List BlockTree}
    {blocks blocks' : Table Name Block} :
    buildBlocks file scope function blocks trees = .ok blocks' ↔
      ∃ l, blocks'.entries = blocks.entries ++ l ∧
        List.Forall₂ (BlockTree.Means file scope) trees l := by
  induction trees generalizing blocks with
  | nil =>
    simp only [buildBlocks, List.forall₂_nil_left_iff, exists_eq_right, List.append_nil]
    refine ⟨?_, ?_⟩
    · intro h
      cases h
      rfl
    · intro h
      obtain ⟨l, hl⟩ := blocks
      obtain ⟨l', hl'⟩ := blocks'
      cases h
      rfl
  | cons tree rest ih =>
    rw [buildBlocks]
    refine ⟨?_, ?_⟩
    · intro h
      split at h
      · cases h
      · rename_i hfresh
        rw [Table.contains_iff] at hfresh
        obtain ⟨ops, hops, h⟩ := ok_of_bind h
        obtain ⟨exit, hexit, h⟩ := ok_of_bind h
        obtain ⟨l, hl, hrest⟩ := ih.1 h
        rw [entries_insert hfresh, List.append_assoc] at hl
        exact ⟨_, hl, .cons ⟨rfl, rfl, buildOps_ok_iff.1 hops, exit, rfl, buildExit_ok_iff.1 hexit⟩
          hrest⟩
    · rintro ⟨l, hl, hmeans⟩
      obtain ⟨⟨n, b⟩, l', htree, hrest, rfl⟩ := List.forall₂_cons_left_iff.1 hmeans
      obtain ⟨hkey, hname, hops, exit, hterminator, hexit⟩ := htree
      obtain ⟨bname, ops, terminator⟩ := b
      simp only at hkey hname hops hterminator
      subst hkey hname hterminator
      -- the key is new, since the resulting table has it once
      have hfresh : labelName tree.label ∉ blocks.keys := by
        have hnodup := blocks'.nodup
        rw [hl, List.map_append, List.nodup_append] at hnodup
        intro hmem
        exact hnodup.2.2 _ hmem (labelName tree.label) (by simp) rfl
      rw [if_neg (by rwa [Table.contains_iff]), buildOps_ok_iff.2 hops]
      simp only [bind, Except.bind, buildExit_ok_iff.2 hexit]
      exact ih.2 ⟨l', by rw [entries_insert hfresh, hl, List.append_assoc]; rfl, hrest⟩

/-- The function that a tree means, given the types of its values. -/
structure FuncTree.Means (file : Option Text) (params : List Value) (scope : Scope)
    (tree : Located FuncTree) (f : Func) : Prop where
  name : f.name = tree.node.name.text
  params : f.params = params
  domain : f.domain = tree.node.domain.text
  blocks : List.Forall₂ (BlockTree.Means file scope) tree.node.blocks f.blocks.entries
  entry : f.entry = labelName tree.node.entry.label
  loc : f.loc = Fault.nodeSpan file tree.start tree.stop

theorem buildFunc_ok_iff {tree : Located FuncTree} {f : Func} :
    buildFunc file types tree = .ok f ↔
      ∃ params scope, tree.node.scope types = .ok (params, scope) ∧
        FuncTree.Means file params scope tree f := by
  rw [buildFunc]
  refine ⟨?_, ?_⟩
  · intro h
    obtain ⟨⟨params, scope⟩, hscope, h⟩ := ok_of_bind h
    obtain ⟨blocks, hblocks, h⟩ := ok_of_bind h
    cases h
    obtain ⟨l, hl, hmeans⟩ := buildBlocks_ok_iff.1 hblocks
    refine ⟨params, scope, hscope, rfl, rfl, rfl, ?_, rfl, rfl⟩
    rw [hl]
    exact hmeans
  · rintro ⟨params, scope, hscope, hname, hparams, hdomain, hblocks, hentry, hloc⟩
    have hbuild : buildBlocks file scope tree.node.name.text {} tree.node.blocks = .ok f.blocks :=
      buildBlocks_ok_iff.2 ⟨f.blocks.entries, rfl, hblocks⟩
    rw [hscope]
    simp only [bind, Except.bind, hbuild]
    obtain ⟨fname, fparams, fdomain, fblocks, fentry, floc⟩ := f
    cases hname
    cases hparams
    cases hdomain
    cases hentry
    cases hloc
    rfl

/-- Every function of a program was built from a tree. -/
theorem exists_tree_of_mem {seen : List Name} {items : List Item} {fs : List Func}
    (h : buildFuncs file types seen items = .ok fs) {f : Func} (hf : f ∈ fs) :
    ∃ tree, buildFunc file types tree = .ok f := by
  induction items generalizing seen fs with
  | nil =>
    cases h
    cases hf
  | cons item items ih =>
    cases item with
    | type t => exact ih h hf
    | func tree =>
      obtain ⟨g, hg, h⟩ := ok_of_bind h
      split at h
      · cases h
      · obtain ⟨gs, hgs, h⟩ := ok_of_bind h
        cases h
        rcases List.mem_cons.1 hf with rfl | hf
        · exact ⟨tree, hg⟩
        · exact ih hgs hf

-- ============================================================================
-- The values of a function
-- ============================================================================

theorem Stmt.Means.dest {stmt : Stmt} {op : Op} (h : stmt.Means scope loc op) :
    Option.Rel scope.Names stmt.dest? op.dest? := by
  cases h with
  | init hd _ => exact .some hd
  | load hd _ => exact .some hd
  | copy hd _ => exact .some hd
  | closure hd _ => exact .some hd
  | result hd hc =>
    rw [Op.dest?, hc.dest]
    exact .some hd
  | store _ _ => exact .none
  | call hc =>
    rw [Op.dest?, hc.dest]
    exact .none
  | use _ => exact .none
  | write _ => exact .none

/-- Of two lists related element by element, every element of the second has one of
    the first. -/
theorem exists_of_forall₂ {α β : Type} {R : α → β → Prop} {l : List α} {l' : List β}
    (h : List.Forall₂ R l l') {b : β} (hb : b ∈ l') : ∃ a ∈ l, R a b := by
  induction h with
  | nil => cases hb
  | @cons a b' l l' hab _ ih =>
    rcases List.mem_cons.1 hb with rfl | hb
    · exact ⟨a, by simp, hab⟩
    · obtain ⟨c, hc, hcb⟩ := ih hb
      exact ⟨c, List.mem_cons_of_mem _ hc, hcb⟩

theorem has_of_forall₂ {ts : List Token} {vs : List Value} (h : List.Forall₂ scope.Names ts vs) :
    ∀ v ∈ vs, scope.Has v := by
  intro v hv
  obtain ⟨t, -, ht⟩ := exists_of_forall₂ h hv
  exact ht.has

theorem has_of_rel {t : Option Token} {v : Option Value} (h : Option.Rel scope.Names t v) :
    ∀ w ∈ v.toList, scope.Has w := by
  cases h with
  | none => simp
  | some hv => simpa using hv.has

theorem CallExpr.Means.has {e : CallExpr} {dest : Option Value} {c : Call}
    (h : e.Means scope loc dest c) : ∀ v ∈ c.operands, scope.Has v := by
  intro v hv
  rcases List.mem_append.1 hv with hv | hv
  · rw [Option.mem_toList, h.receiver] at hv
    split at hv
    · cases hv
    · cases hvalue : scope.value e.callee with
      | error e => simp [hvalue, Except.toOption] at hv
      | ok w =>
        obtain rfl : w = v := by simpa [hvalue, Except.toOption] using hv
        exact (value_ok_iff.1 hvalue).has
  · exact has_of_forall₂ h.args v hv

/-- What a statement uses has the collected type. -/
theorem Stmt.Means.has {stmt : Stmt} {op : Op} (h : stmt.Means scope loc op) :
    ∀ e ∈ op.operands, scope.Has e.1 := by
  have hmap : ∀ (vs : List Value) (kind : AccessKind), (∀ v ∈ vs, scope.Has v) →
      ∀ e ∈ vs.map (·, kind), scope.Has e.1 := by
    intro vs kind hvs e he
    obtain ⟨v, hv, rfl⟩ := List.mem_map.1 he
    exact hvs v hv
  cases h with
  | init _ hargs => exact hmap _ _ (has_of_forall₂ hargs)
  | load _ hb => simpa [Op.operands] using hb.has
  | copy _ ht => simpa [Op.operands] using ht.has
  | closure _ hts => exact hmap _ _ (has_of_forall₂ hts)
  | result _ hc => exact hmap _ _ hc.has
  | store hb ht => simpa [Op.operands] using ⟨hb.has, ht.has⟩
  | call hc => exact hmap _ _ hc.has
  | use ht => simpa [Op.operands] using ht.has
  | write ht => simpa [Op.operands] using ht.has

theorem Exit.Means.has {exit : Exit} {t : Terminator} (h : exit.Means scope loc t) :
    ∀ e ∈ t.operands, scope.Has e.1 := by
  have hmap : ∀ (v : Option Value) (kind : AccessKind), (∀ w ∈ v.toList, scope.Has w) →
      ∀ e ∈ v.toList.map (·, kind), scope.Has e.1 := by
    intro v kind hv e he
    obtain ⟨w, hw, rfl⟩ := List.mem_map.1 he
    exact hv w hw
  cases h with
  | goto target => simp [Terminator.operands]
  | branch hc => exact hmap _ _ (has_of_rel hc)
  | ret ht => exact hmap _ _ (has_of_rel ht)
  | throw ht => exact hmap _ _ (has_of_rel ht)
  | unreachable => simp [Terminator.operands]

/-- What a block uses has the collected type. -/
theorem BlockTree.Means.has {tree : BlockTree} {e : Name × Block} (h : tree.Means file scope e) :
    ∀ l ∈ e.2.operandLists, ∀ o ∈ l, scope.Has o.1 := by
  obtain ⟨t, hterminator, hexit⟩ := h.terminator
  intro l hl
  rw [Block.operandLists, hterminator, List.mem_append] at hl
  rcases hl with hl | hl
  · obtain ⟨op, hop, rfl⟩ := List.mem_map.1 hl
    obtain ⟨s, -, hs⟩ := exists_of_forall₂ h.ops hop
    exact hs.has
  · obtain rfl : l = t.operands := by simpa using hl
    exact hexit.has

theorem BlockTree.Means.dest_has {tree : BlockTree} {e : Name × Block}
    (h : tree.Means file scope e) : ∀ d ∈ e.2.ops.filterMap Op.dest?, scope.Has d := by
  intro d hd
  obtain ⟨op, hop, hdest⟩ := List.mem_filterMap.1 hd
  obtain ⟨s, -, hs⟩ := exists_of_forall₂ h.ops hop
  have hrel := hs.dest
  rw [hdest] at hrel
  exact has_of_rel hrel d (by simp)

/-- The operations define what the statements assign to. -/
theorem names_of_means {l : List (Located Stmt)} {ops : List Op}
    (h : List.Forall₂ (fun s op => s.node.Means scope (Fault.nodeSpan file s.start s.stop) op) l ops) :
    (ops.filterMap Op.dest?).map Value.name = assigned l := by
  induction h with
  | nil => rfl
  | @cons s op l ops hs _ ih =>
    have hrel := hs.dest
    rw [List.filterMap_cons, assigned, List.filterMap_cons]
    cases hstmt : s.node.dest? with
    | none =>
      rw [hstmt] at hrel
      cases hop : op.dest? with
      | none => exact ih
      | some d =>
        rw [hop] at hrel
        cases hrel
    | some t =>
      rw [hstmt] at hrel
      cases hop : op.dest? with
      | none =>
        rw [hop] at hrel
        cases hrel
      | some d =>
        rw [hop] at hrel
        cases hrel with
        | some hd =>
          simp only [List.map_cons, Option.map_some, hd.text]
          exact congrArg _ ih

theorem names_of_blocks {trees : List BlockTree} {l : List (Name × Block)}
    (h : List.Forall₂ (BlockTree.Means file scope) trees l) :
    ((l.map Prod.snd).flatMap fun b => b.ops.filterMap Op.dest?).map Value.name =
      assigned (trees.flatMap BlockTree.stmts) := by
  induction h with
  | nil => rfl
  | @cons tree e trees l htree _ ih =>
    rw [List.map_cons, List.flatMap_cons, List.map_append, ih, names_of_means htree.ops,
      List.flatMap_cons, assigned, assigned, assigned, List.filterMap_append]

/-- Every value of the function has the collected type. -/
theorem FuncTree.Means.has {params : List Value} {tree : Located FuncTree} {f : Func}
    (hparams : ∀ v ∈ params, scope.Has v) (h : FuncTree.Means file params scope tree f) :
    ∀ v ∈ f.values, scope.Has v := by
  intro v hv
  have hblock : ∀ b ∈ f.blocks.values, ∃ (t : BlockTree) (e : Name × Block),
      t.Means file scope e ∧ e.2 = b := by
    intro b hb
    obtain ⟨e, he, rfl⟩ := List.mem_map.1 hb
    obtain ⟨t, -, ht⟩ := exists_of_forall₂ h.blocks he
    exact ⟨t, e, ht, rfl⟩
  rw [Func.values, Func.definitions, h.params, List.mem_append, List.mem_append] at hv
  rcases hv with (hv | hv) | hv
  · exact hparams v hv
  · obtain ⟨b, hb, hv⟩ := List.mem_flatMap.1 hv
    obtain ⟨t, e, ht, rfl⟩ := hblock b hb
    exact ht.dest_has v hv
  · obtain ⟨b, hb, hv⟩ := List.mem_flatMap.1 hv
    obtain ⟨t, e, ht, rfl⟩ := hblock b hb
    obtain ⟨o, ho, rfl⟩ := List.mem_map.1 hv
    obtain ⟨l, hl, ho⟩ := List.mem_flatten.1 ho
    exact ht.has l hl o ho

/-- The definitions of the function name what was collected. -/
theorem FuncTree.Means.defines {params : List Value} {tree : Located FuncTree} {f : Func}
    (hscope : tree.node.scope types = .ok (params, scope))
    (h : FuncTree.Means file params scope tree f) {n : Name} (hn : n ∈ scope.keys) :
    ∃ d ∈ f.definitions, d.name = n := by
  have hnames : f.definitions.map Value.name =
      params.map Value.name ++ assigned (tree.node.blocks.flatMap BlockTree.stmts) := by
    rw [Func.definitions, h.params, List.map_append, Table.values, names_of_blocks h.blocks]
  rw [(scope_ok hscope).2, ← List.mem_append, ← hnames] at hn
  exact List.mem_map.1 hn

end Sendability.Source

namespace Sendability

-- ============================================================================
-- Validation of typed functions
-- ============================================================================

/-- Types that agree with a collection are collected without conflict. -/
theorem collectTypes_ok {types : Name → Option TypeInfo} {loc : Span} {vs : List Value}
    (hvs : ∀ v ∈ vs, types v.name = some v.type) {defined : Table Name TypeInfo}
    (hdefined : ∀ n t, defined.get? n = some t → types n = some t) :
    ∃ out, collectTypes loc defined vs = .ok out ∧
      ∀ n, n ∈ defined.keys ∨ (∃ v ∈ vs, v.name = n) → n ∈ out.keys := by
  induction vs generalizing defined with
  | nil => exact ⟨defined, rfl, fun n hn => hn.resolve_right (by simp)⟩
  | cons v vs ih =>
    have hv := hvs v (by simp)
    have hinsert : ∀ n t, (defined.insert v.name v.type).get? n = some t → types n = some t := by
      intro n t hn
      rw [Table.get?_insert] at hn
      split at hn
      · rename_i hvn
        rw [← hvn, hv, hn]
      · exact hdefined n t hn
    obtain ⟨out, hout, hkeys⟩ := ih (fun w hw => hvs w (List.mem_cons_of_mem _ hw)) hinsert
    refine ⟨out, ?_, ?_⟩
    · rw [collectTypes]
      cases hget : defined.get? v.name with
      | none => exact hout
      | some t =>
        have ht : t = v.type := Option.some.inj ((hdefined _ t hget).symm.trans hv)
        simp only [ht, if_true]
        exact hout
    · intro n hn
      apply hkeys
      rw [Source.Scope.mem_keys_insert]
      rcases hn with hn | ⟨w, hw, rfl⟩
      · exact .inl (.inl hn)
      · rcases List.mem_cons.1 hw with rfl | hw
        · exact .inl (.inr rfl)
        · exact .inr ⟨w, hw, rfl⟩

theorem checkOperands_ok {defined : Table Name TypeInfo} {block : Name} {loc : Span}
    {l : List (Value × AccessKind)} (h : ∀ e ∈ l, e.1.name ∈ defined.keys) :
    checkOperands defined block loc l = .ok () := by
  induction l with
  | nil => rfl
  | cons e l ih =>
    rw [checkOperands, if_pos ((Table.contains_iff _ _).2 (h e (by simp)))]
    exact ih fun e' he' => h e' (List.mem_cons_of_mem _ he')

theorem checkOps_ok {defined : Table Name TypeInfo} {block : Name} {ops : List Op}
    (h : ∀ op ∈ ops, ∀ e ∈ op.operands, e.1.name ∈ defined.keys) :
    checkOps defined block ops = .ok () := by
  induction ops with
  | nil => rfl
  | cons op ops ih =>
    rw [checkOps, checkOperands_ok (h op (by simp))]
    exact ih fun op' hop' => h op' (List.mem_cons_of_mem _ hop')

/-- The targets are all there, or the first that is not is found. -/
theorem checkTargets_cases (blocks : Table Name Block) (block : Name) (loc : Span) (l : List Name) :
    (checkTargets blocks block loc l = .ok () ∧ ∀ t ∈ l, t ∈ blocks.keys) ∨
      ∃ t ∈ l, t ∉ blocks.keys ∧
        checkTargets blocks block loc l = .error (.unknownTarget block t loc) := by
  induction l with
  | nil => exact .inl ⟨rfl, by simp⟩
  | cons t l ih =>
    by_cases ht : t ∈ blocks.keys
    · rw [checkTargets, if_pos ((Table.contains_iff _ _).2 ht)]
      rcases ih with ⟨hok, hall⟩ | ⟨t', hmem, hmissing, herror⟩
      · exact .inl ⟨hok, by simpa [ht] using hall⟩
      · exact .inr ⟨t', List.mem_cons_of_mem _ hmem, hmissing, herror⟩
    · refine .inr ⟨t, by simp, ht, ?_⟩
      rw [checkTargets, if_neg (by rwa [Table.contains_iff])]

namespace Func

variable {f : Func}

/-- A function whose values are typed and defined: validation can only find a jump
    to a block that is not there. -/
structure TypedBy (types : Name → Option TypeInfo) (f : Func) : Prop where
  values : ∀ v ∈ f.values, types v.name = some v.type
  defined : ∀ v ∈ f.values, ∃ d ∈ f.definitions, d.name = v.name
  entry : f.blocks.keys.head? = some f.entry
  blocks : ∀ e ∈ f.blocks.entries, e.2.name = e.1 ∧ ∃ t, e.2.terminator = some t

/-- What is left to check of a block with its own name, a terminator and defined
    operands are the targets. -/
theorem validateBlock_eq {defined : Table Name TypeInfo} {key : Name} {b : Block} {t : Terminator}
    (hname : b.name = key) (hterminator : b.terminator = some t)
    (hdefined : ∀ os ∈ b.operandLists, ∀ o ∈ os, o.1.name ∈ defined.keys) :
    f.validateBlock defined key b = checkTargets f.blocks key t.loc b.successors := by
  have hops : checkOps defined key b.ops = .ok () := by
    refine checkOps_ok fun op hop => hdefined op.operands ?_
    exact List.mem_append_left _ (List.mem_map_of_mem hop)
  have hterm : checkOperands defined key t.loc t.operands = .ok () := by
    refine checkOperands_ok (hdefined t.operands ?_)
    rw [Block.operandLists, hterminator]
    exact List.mem_append_right _ (by simp)
  rw [validateBlock, if_neg (not_not.2 hname), Block.successors, hterminator]
  simp only [hops, hterm]
  rfl

theorem validateBlocks_cases {defined : Table Name TypeInfo} {l : List (Name × Block)}
    (hnames : ∀ e ∈ l, e.2.name = e.1 ∧ ∃ t, e.2.terminator = some t)
    (hdefined : ∀ e ∈ l, ∀ os ∈ e.2.operandLists, ∀ o ∈ os, o.1.name ∈ defined.keys) :
    (f.validateBlocks defined l = .ok () ∧ ∀ e ∈ l, ∀ t ∈ e.2.successors, t ∈ f.blocks.keys) ∨
      ∃ e ∈ l, ∃ t ∈ e.2.successors, t ∉ f.blocks.keys ∧ ∃ loc,
        f.validateBlocks defined l = .error (.unknownTarget e.1 t loc) := by
  induction l with
  | nil => exact .inl ⟨rfl, by simp⟩
  | cons e l ih =>
    obtain ⟨key, b⟩ := e
    obtain ⟨hname, t, hterminator⟩ := hnames (key, b) (by simp)
    have hrest := ih (fun e he => hnames e (List.mem_cons_of_mem _ he))
      fun e he => hdefined e (List.mem_cons_of_mem _ he)
    rw [validateBlocks, validateBlock_eq hname hterminator (hdefined (key, b) (by simp))]
    rcases checkTargets_cases f.blocks key t.loc b.successors with
      ⟨hok, hall⟩ | ⟨t', ht', hmissing, herror⟩
    · rw [hok]
      rcases hrest with ⟨hrest, hothers⟩ | ⟨e, he, t', ht', hmissing, loc, herror⟩
      · refine .inl ⟨hrest, ?_⟩
        intro e he
        rcases List.mem_cons.1 he with rfl | he
        · exact hall
        · exact hothers e he
      · exact .inr ⟨e, List.mem_cons_of_mem _ he, t', ht', hmissing, loc, herror⟩
    · rw [herror]
      exact .inr ⟨(key, b), by simp, t', ht', hmissing, t.loc, rfl⟩

theorem TypedBy.validate_cases {types : Name → Option TypeInfo} (h : f.TypedBy types) :
    (f.validate = .ok () ∧ ∀ e ∈ f.blocks.entries, ∀ t ∈ e.2.successors, t ∈ f.blocks.keys) ∨
      ∃ e ∈ f.blocks.entries, ∃ t ∈ e.2.successors, t ∉ f.blocks.keys ∧ ∃ loc,
        f.validate = .error (.unknownTarget e.1 t loc) := by
  have hentry : f.blocks.contains f.entry = true :=
    (Table.contains_iff _ _).2 (List.mem_of_mem_head? h.entry)
  have hdefinitions : ∀ v ∈ f.definitions, types v.name = some v.type := fun v hv =>
    h.values v (List.mem_append_left _ hv)
  have hempty : ∀ n t, ({} : Table Name TypeInfo).get? n = some t → types n = some t := by
    intro n t hn
    cases hn
  obtain ⟨defined, hcollect, hkeys⟩ :
      ∃ out, collectTypes f.loc {} f.definitions = .ok out ∧ _ := collectTypes_ok hdefinitions hempty
  have huse : ∀ e ∈ f.blocks.entries, ∀ os ∈ e.2.operandLists, ∀ o ∈ os, o.1.name ∈ defined.keys := by
    intro e he os hos o ho
    have hvalue : o.1 ∈ f.values := by
      refine List.mem_append_right _ (List.mem_flatMap.2 ⟨e.2, List.mem_map_of_mem he, ?_⟩)
      exact List.mem_map_of_mem (List.mem_flatten.2 ⟨os, hos, ho⟩)
    obtain ⟨d, hd, hname⟩ := h.defined o.1 hvalue
    exact hkeys _ (.inr ⟨d, hd, hname⟩)
  rw [validate, if_pos hentry, hcollect]
  exact validateBlocks_cases h.blocks huse

end Func

/-- A function that is built is typed by what was collected for it. -/
theorem Source.typed_of_buildFunc {file : Option Text} {types : Source.Types}
    {tree : Source.Located Source.FuncTree} {f : Func}
    (h : Source.buildFunc file types tree = .ok f) : ∃ types', f.TypedBy types' := by
  obtain ⟨params, scope, hscope, hmeans⟩ := Source.buildFunc_ok_iff.1 h
  have hhas := hmeans.has (Source.scope_ok hscope).1
  refine ⟨scope.get?, hhas, ?_, ?_, ?_⟩
  · intro v hv
    refine hmeans.defines hscope ?_
    rw [Table.mem_keys_iff, hhas v hv]
    rfl
  · have hblocks := hmeans.blocks
    rw [Source.FuncTree.blocks] at hblocks
    obtain ⟨e, l, he, -, hentries⟩ := List.forall₂_cons_left_iff.1 hblocks
    rw [Table.keys, hentries, hmeans.entry, ← he.key]
    rfl
  · intro e he
    obtain ⟨tree', -, htree⟩ := Source.exists_of_forall₂ hmeans.blocks he
    obtain ⟨t, ht, -⟩ := htree.terminator
    exact ⟨htree.name, t, ht⟩

/-- A function of a program that was read from a text gives one type to all values
    of a name, defines what it uses, and starts at its first block. It passes
    validation exactly if every jump goes to one of its blocks; otherwise a jump
    that does not is reported, and nothing else is. -/
theorem Program.parse_meets_validation {text : Text} {file : Option Text} {program : Program}
    (h : Program.parse text file = .ok program) {f : Func} (hf : f ∈ program.functions) :
    (∀ v ∈ f.values, ∀ w ∈ f.values, v.name = w.name → v.type = w.type) ∧
    (∀ v ∈ f.values, ∃ d ∈ f.definitions, d.name = v.name) ∧
    f.blocks.keys.head? = some f.entry ∧
    (f.validate = .ok () ↔
      ∀ b ∈ f.blocks.values, ∀ t ∈ b.successors, t ∈ f.blocks.keys) ∧
    ∀ e, f.validate = .error e →
      ∃ n b t loc, (n, b) ∈ f.blocks.entries ∧ t ∈ b.successors ∧ t ∉ f.blocks.keys ∧
        e = .unknownTarget n t loc := by
  obtain ⟨items, -, hbuild⟩ := ok_of_bind h
  obtain ⟨types, -, hbuild⟩ := ok_of_bind hbuild
  obtain ⟨functions, hfunctions, hbuild⟩ := ok_of_bind hbuild
  cases hbuild
  obtain ⟨tree, htree⟩ := Source.exists_tree_of_mem hfunctions hf
  obtain ⟨types', htyped⟩ := Source.typed_of_buildFunc htree
  refine ⟨?_, htyped.defined, htyped.entry, ?_, ?_⟩
  · intro v hv w hw hname
    have htype := htyped.values v hv
    rw [hname, htyped.values w hw] at htype
    exact (Option.some.inj htype).symm
  · refine ⟨?_, ?_⟩
    · intro hvalid b hb
      obtain ⟨⟨n, b'⟩, he, rfl⟩ := List.mem_map.1 hb
      rcases htyped.validate_cases with ⟨-, hall⟩ | ⟨e, -, t, -, -, loc, herror⟩
      · exact hall _ he
      · rw [hvalid] at herror
        cases herror
    · intro hall
      rcases htyped.validate_cases with ⟨hok, -⟩ | ⟨e, he, t, ht, hmissing, -⟩
      · exact hok
      · exact absurd (hall e.2 (List.mem_map_of_mem he) t ht) hmissing
  · intro e he
    rcases htyped.validate_cases with ⟨hok, -⟩ | ⟨⟨n, b⟩, hmem, t, ht, hmissing, loc, herror⟩
    · rw [hok] at he
      cases he
    · rw [herror] at he
      cases he
      exact ⟨n, b, t, loc, hmem, ht, hmissing, rfl⟩

/-- A function that copies a value before the text defines it, calls a method of the
    copy, and may jump to a block that it does not have. -/
def jumpAway : Text :=
  "func f(p : Box) in main { @a: y = copy x br p ? @b, @gone @b: x = init Box(p) call y.send(x, p) on A goto @a }"

/-- Validation reports the jump. -/
theorem jumpAway_reported : ∃ program f, Program.parse jumpAway none = .ok program ∧
    f ∈ program.functions ∧ (∀ v ∈ f.values, ∃ d ∈ f.definitions, d.name = v.name) ∧
    ∃ n b t loc, (n, b) ∈ f.blocks.entries ∧ t ∈ b.successors ∧ t ∉ f.blocks.keys ∧
      f.validate = .error (.unknownTarget n t loc) := by
  have hrun : ∃ program, Program.parse jumpAway none = .ok program ∧ ∃ f ∈ program.functions,
      f.validate ≠ .ok () := by
    have hread : ((Program.parse jumpAway none).toOption.any fun p =>
        p.functions.any fun f => decide (f.validate ≠ .ok ())) = true := by decide +kernel
    cases hparse : Program.parse jumpAway none with
    | error e => simp [hparse, Except.toOption] at hread
    | ok program =>
      simp only [hparse, Except.toOption, Option.any_some, List.any_eq_true] at hread
      obtain ⟨f, hf, hvalid⟩ := hread
      exact ⟨program, rfl, f, hf, of_decide_eq_true hvalid⟩
  obtain ⟨program, hparse, f, hf, hinvalid⟩ := hrun
  obtain ⟨-, hdefined, -, -, hreport⟩ := Program.parse_meets_validation hparse hf
  refine ⟨program, f, hparse, hf, hdefined, ?_⟩
  cases hvalidate : f.validate with
  | ok _ => exact absurd hvalidate hinvalid
  | error e =>
    obtain ⟨n, b, t, loc, hmem, ht, hmissing, rfl⟩ := hreport e hvalidate
    exact ⟨n, b, t, loc, hmem, ht, hmissing, rfl⟩

end Sendability
