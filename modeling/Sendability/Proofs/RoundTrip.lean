/-
  Written programs are read back.

  `Rule.Accepts` follows the shape of the grammar: it says that tokens with some
  words are a sequence of a rule and what their tree is like. For every form of the
  text there is one lemma, from the parts of a call up to a whole function, and the
  tree is described by what it was written for (`Stmt.Writes`, `BlockTree.Writes`,
  `FuncTree.Writes`). Since every definition is written with its type, the first
  pass over such a tree collects exactly the types of the function
  (`FuncTree.Writes.scoped`), so the second finds every value.
-/

import Sendability.Proofs.Elaboration
import Sendability.Proofs.Productions
import Sendability.Proofs.Writing

namespace Sendability.Source

-- ============================================================================
-- Rules on words
-- ============================================================================

namespace Rule

variable {α β γ ι : Type} {r : Rule α} {s : Rule β} {ws us vs : List Word} {P P' : α → Prop}
  {Q : β → Prop}

/-- Tokens with the words `ws` are a sequence of the rule, with a meaning that has
    the property `P`. -/
def Accepts (r : Rule α) (ws : List Word) (P : α → Prop) : Prop :=
  ∀ ts : List Token, ts.map Token.word = ws → ∃ a, r.Derives ts a ∧ P a

/-- A word is accepted as a token of its kind. -/
theorem accepts_token (w : Word) :
    (Rule.token w.kind).Accepts [w] fun t => t.text = w.text := by
  intro ts hts
  obtain ⟨t, rfl, rfl⟩ := List.map_eq_singleton_iff.1 hts
  exact ⟨t, ⟨rfl, rfl⟩, rfl⟩

theorem Accepts.mono (h : r.Accepts ws P) (hP : ∀ a, P a → P' a) : r.Accepts ws P' := by
  intro ts hts
  obtain ⟨a, ha, hPa⟩ := h ts hts
  exact ⟨a, ha, hP a hPa⟩

theorem Accepts.map {f : α → β} (h : r.Accepts ws P) (hP : ∀ a, P a → Q (f a)) :
    (r.map f).Accepts ws Q := by
  intro ts hts
  obtain ⟨a, ha, hPa⟩ := h ts hts
  exact ⟨f a, ⟨a, ha, rfl⟩, hP a hPa⟩

/-- Words for two rules are accepted by the sequence of both. -/
theorem Accepts.seq (hr : r.Accepts us P) (hs : s.Accepts vs Q) :
    (r.seq s).Accepts (us ++ vs) fun p => P p.1 ∧ Q p.2 := by
  intro ts hts
  obtain ⟨ts₁, ts₂, rfl, h₁, h₂⟩ := List.map_eq_append_iff.1 hts
  obtain ⟨a, ha, hPa⟩ := hr ts₁ h₁
  obtain ⟨b, hb, hQb⟩ := hs ts₂ h₂
  exact ⟨(a, b), ⟨ts₁, ts₂, rfl, ha, hb⟩, hPa, hQb⟩

theorem Accepts.left {r' : Rule α} (h : r.Accepts ws P) : (r.either r').Accepts ws P := by
  intro ts hts
  obtain ⟨a, ha, hPa⟩ := h ts hts
  exact ⟨a, .inl ha, hPa⟩

theorem Accepts.right {r' : Rule α} (h : r'.Accepts ws P) : (r.either r').Accepts ws P := by
  intro ts hts
  obtain ⟨a, ha, hPa⟩ := h ts hts
  exact ⟨a, .inr ha, hPa⟩

/-- An optional part that is written when there is something to write. -/
theorem accepts_optional {R : α → ι → Prop} {w : ι → List Word} {o : Option ι}
    (h : ∀ x ∈ o, r.Accepts (w x) (R · x)) :
    r.optional.Accepts (o.toList.flatMap w) fun a => Option.Rel R a o := by
  intro ts hts
  cases o with
  | none =>
    obtain rfl : ts = [] := List.map_eq_nil_iff.1 hts
    exact ⟨none, rfl, .none⟩
  | some x =>
    rw [Option.toList_some, List.flatMap_singleton] at hts
    obtain ⟨a, ha, hR⟩ := h x rfl ts hts
    exact ⟨some a, ha, .some hR⟩

/-- A repeated part that is written for every element of a list. -/
theorem accepts_many {R : α → ι → Prop} {w : ι → List Word} {l : List ι}
    (h : ∀ x ∈ l, r.Accepts (w x) (R · x)) :
    r.many.Accepts (l.flatMap w) fun as => List.Forall₂ R as l := by
  intro ts hts
  induction l generalizing ts with
  | nil =>
    obtain rfl : ts = [] := List.map_eq_nil_iff.1 hts
    exact ⟨[], rfl, .nil⟩
  | cons x l ih =>
    rw [List.forall_mem_cons] at h
    rw [List.flatMap_cons] at hts
    obtain ⟨ts₁, ts₂, rfl, h₁, h₂⟩ := List.map_eq_append_iff.1 hts
    obtain ⟨a, ha, hR⟩ := h.1 ts₁ h₁
    obtain ⟨as, has, hRs⟩ := ih h.2 ts₂ h₂
    exact ⟨a :: as, ⟨ts₁, ts₂, rfl, ha, has⟩, .cons hR hRs⟩

theorem Accepts.located (h : r.Accepts ws P) : r.located.Accepts ws fun l => P l.node := by
  intro ts hts
  obtain ⟨a, ha, hPa⟩ := h ts hts
  exact ⟨⟨(place ts []).1, (place ts []).2, a⟩, ⟨ha, rfl⟩, hPa⟩

-- ============================================================================
-- Derived rules
-- ============================================================================

theorem accepts_name (n : Name) : name.Accepts [.name n] fun t => t.text = n :=
  accepts_token (.name n)

theorem accepts_label (n : Name) : label.Accepts [.label n] fun t => labelName t = n :=
  (accepts_token (.label n)).mono fun t ht => by rw [labelName, ht]; rfl

theorem accepts_mark (m : Mark) : (mark m).Accepts [.mark m] fun _ => True :=
  (accepts_token (.mark m)).map fun _ _ => trivial

theorem accepts_word (k : Keyword) : (word k).Accepts [.keyword k] fun _ => True :=
  (accepts_token (.keyword k)).map fun _ _ => trivial

theorem Accepts.after_word {k : Keyword} (h : r.Accepts ws P) :
    (after (word k) r).Accepts (.keyword k :: ws) P :=
  ((accepts_word k).seq h).map fun _ hp => hp.2

theorem Accepts.after_mark {m : Mark} (h : r.Accepts ws P) :
    (after (mark m) r).Accepts (.mark m :: ws) P :=
  ((accepts_mark m).seq h).map fun _ hp => hp.2

theorem Accepts.before_mark {m : Mark} (h : r.Accepts ws P) :
    (before r (mark m)).Accepts (ws ++ [.mark m]) P :=
  (h.seq (accepts_mark m)).map fun _ hp => hp.1

theorem Accepts.between_marks (h : r.Accepts ws P) (l r' : Mark) :
    (between (mark l) (mark r') r).Accepts (.mark l :: ws ++ [.mark r']) P :=
  h.after_mark.before_mark

/-- Parts divided by commas, one for every element of a list. -/
theorem accepts_commaList {R : α → ι → Prop} {w : ι → List Word} {x : ι} {l : List ι}
    (h : ∀ y ∈ x :: l, r.Accepts (w y) (R · y)) :
    (commaList r).Accepts (commas ((x :: l).map w)) fun p =>
      R p.1 x ∧ List.Forall₂ R p.2 l := by
  rw [List.forall_mem_cons] at h
  have hmany : (many (after (mark .comma) r)).Accepts
      ((l.map w).flatMap (Word.mark .comma :: ·)) fun as => List.Forall₂ R as l := by
    rw [List.flatMap_map]
    exact accepts_many fun y hy => (h.2 y hy).after_mark
  exact h.1.seq hmany

/-- Items that are accepted one by one are accepted with commas between them. -/
theorem accepts_commaList? {R : α → ι → Prop} {w : ι → List Word} {l : List ι}
    (h : ∀ x ∈ l, r.Accepts (w x) (R · x)) :
    (commaList? r).Accepts (commas (l.map w)) fun as => List.Forall₂ R as l := by
  cases l with
  | nil =>
    intro ts hts
    obtain rfl : ts = [] := List.map_eq_nil_iff.1 hts
    exact ⟨[], ⟨none, rfl, rfl⟩, .nil⟩
  | cons x l =>
    intro ts hts
    obtain ⟨⟨a, as⟩, hp, hR, hRs⟩ := accepts_commaList h ts hts
    exact ⟨a :: as, ⟨some (a, as), hp, rfl⟩, .cons hR hRs⟩

end Rule

end Sendability.Source

namespace Sendability

open Source

-- ============================================================================
-- Programs up to places
-- ============================================================================

/-- An operation at another place. -/
def Op.withLoc (loc : Span) : Op → Op
  | .init d args _ => .init d args loc
  | .load d base field _ => .load d base field loc
  | .copy d src _ => .copy d src loc
  | .store base field value _ => .store base field value loc
  | .closure d captures _ => .closure d captures loc
  | .call c => .call { c with loc }
  | .use v kind _ => .use v kind loc

/-- A terminator at another place. -/
def Terminator.withLoc (loc : Span) : Terminator → Terminator
  | .goto target _ => .goto target loc
  | .branch targets cond _ => .branch targets cond loc
  | .ret value _ => .ret value loc
  | .throw value handler _ => .throw value handler loc
  | .unreachable _ => .unreachable loc

@[simp] theorem Op.withLoc_withLoc (op : Op) (l l' : Span) :
    (op.withLoc l).withLoc l' = op.withLoc l' := by
  cases op <;> rfl

@[simp] theorem Terminator.withLoc_withLoc (t : Terminator) (l l' : Span) :
    (t.withLoc l).withLoc l' = t.withLoc l' := by
  cases t <;> rfl

/-- A block without places. -/
def Block.unlocated (b : Block) : Block :=
  { b with
    ops := b.ops.map (Op.withLoc {})
    terminator := b.terminator.map (Terminator.withLoc {}) }

/-- A function without places. -/
def Func.unlocated (f : Func) : Func :=
  { f with blocks := f.blocks.mapValues Block.unlocated, loc := {} }

-- ============================================================================
-- The values of a function
-- ============================================================================

/-- The type of the values with a name. -/
def Func.typeOf? (f : Func) (n : Name) : Option TypeInfo :=
  (f.definitions.find? fun v => v.name = n).map Value.type

/-- The collected types are those of the function. -/
def Func.Scoped (f : Func) (scope : Scope) : Prop := ∀ n, scope.get? n = f.typeOf? n

theorem Source.Types.Gives.typeOf {types : Types} {t : TypeInfo} (h : types.Gives t) :
    types.typeOf t.name = t := by
  obtain ⟨name, sendable⟩ := t
  rcases h with h | ⟨h, hs⟩
  · rw [Types.typeOf, h]
    rfl
  · rw [Types.typeOf, h]
    simp only at hs
    rw [hs]
    rfl

namespace Func.Expressible

variable {types : Types} {f : Func} (hf : f.Expressible types)

include hf

theorem typeOf {v : Value} (hv : v ∈ f.definitions) : types.typeOf v.type.name = v.type :=
  (hf.values v hv).2.2.typeOf

/-- A definition is found by its name. -/
theorem find?_eq {v : Value} (hv : v ∈ f.definitions) :
    (f.definitions.find? fun w => w.name = v.name) = some v := by
  cases hfind : f.definitions.find? fun w => w.name = v.name with
  | none => simpa using List.find?_eq_none.1 hfind v hv
  | some w =>
    have hname : w.name = v.name := by simpa using List.find?_some hfind
    have htype := hf.oneType w (List.mem_of_find?_eq_some hfind) v hv hname
    obtain ⟨n, t⟩ := w
    obtain ⟨n', t'⟩ := v
    simp only at hname htype
    rw [hname, htype]

theorem typeOf?_eq {v : Value} (hv : v ∈ f.definitions) : f.typeOf? v.name = some v.type := by
  rw [Func.typeOf?, hf.find?_eq hv]
  rfl

theorem names {scope : Scope} (hscope : f.Scoped scope) {v : Value} (hv : v ∈ f.definitions)
    {t : Token} (ht : t.text = v.name) : scope.Names t v :=
  ⟨ht, (hscope v.name).trans (hf.typeOf?_eq hv)⟩

end Func.Expressible

/-- The values of a function are found in its types. -/
theorem Func.Scoped.value {f : Func} {scope : Scope} (h : f.Scoped scope) (t : Token) :
    (scope.value t).toOption = f.definitions.find? fun v => v.name = t.text := by
  rw [Scope.value, h, typeOf?]
  cases hfind : f.definitions.find? fun v => v.name = t.text with
  | none => rfl
  | some v =>
    have hname : v.name = t.text := by simpa using List.find?_some hfind
    rw [Option.map_some, ← hname]
    rfl

end Sendability

namespace Sendability.Source

open Rule

-- ============================================================================
-- Statements
-- ============================================================================

/-- A statement says of what an operation defines what it is and of which type. -/
inductive Stmt.Declares (types : Types) : Stmt → Option Value → Prop
  | assign {d w : Token} {rhs : Rhs} {v : Value} :
      d.text = v.name → types.typeOf w.text = v.type →
      (∀ t args, rhs = .init t args → types.typeOf t.text = v.type) →
      Declares types (.assign d (some w) rhs) (some v)
  | other {s : Stmt} : s.dest? = none → Declares types s none

/-- A statement was written for an operation of a function. -/
structure Stmt.Writes (types : Types) (f : Func) (s : Stmt) (op : Op) : Prop where
  declares : s.Declares types op.dest?
  means : ∀ scope, f.Scoped scope → ∀ loc, s.Means scope loc (op.withLoc loc)

/-- The end of a block was written for a terminator of a function. -/
def Exit.Writes (f : Func) (e : Exit) (t : Terminator) : Prop :=
  ∀ scope, f.Scoped scope → ∀ loc, e.Means scope loc (t.withLoc loc)

/-- A token spells the name of a value. -/
def Spells (t : Token) (v : Value) : Prop := t.text = v.name

theorem accepts_value (v : Value) : name.Accepts v.words (Spells · v) := accepts_name v.name

theorem accepts_names (l r : Mark) (vs : List Value) :
    (Grammar.names l r).Accepts (.mark l :: commas (vs.map Value.words) ++ [.mark r])
      fun ts => List.Forall₂ Spells ts vs :=
  (accepts_commaList? fun v _ => accepts_value v).between_marks l r

/-- An attribute of a call was written for a domain, or for spawning. -/
inductive CallAttr.Writes : CallAttr → Option Name → Prop
  | onDomain (t : Token) : Writes (.onDomain t) (some t.text)
  | spawn : Writes .spawn none

theorem accepts_attribute (o : Option Name) :
    Grammar.callAttr.Accepts (attributeWords o) (CallAttr.Writes · o) := by
  cases o with
  | none =>
    refine Accepts.right ((accepts_word .spawn).map ?_)
    intro _ _
    exact .spawn
  | some d =>
    refine Accepts.left ((accepts_name d).after_word.map ?_)
    rintro t rfl
    exact .onDomain t

/-- The attributes say what the call says. -/
theorem attributes_eq {attrs : List CallAttr} {c : Call}
    (h : List.Forall₂ CallAttr.Writes attrs c.attributes) :
    attrDomain attrs = c.domain ∧ attrs.contains .spawn = c.spawns := by
  rw [Call.attributes] at h
  cases hdomain : c.domain with
  | none =>
    cases hspawns : c.spawns with
    | false =>
      simp only [hdomain, hspawns] at h
      cases h
      exact ⟨rfl, rfl⟩
    | true =>
      simp only [hdomain, hspawns] at h
      obtain ⟨a, attrs, ⟨⟩, hnil, rfl⟩ := List.forall₂_cons_right_iff.1 h
      cases hnil
      exact ⟨rfl, rfl⟩
  | some d =>
    cases hspawns : c.spawns with
    | false =>
      simp only [hdomain, hspawns] at h
      obtain ⟨a, attrs, ⟨t⟩, hnil, rfl⟩ := List.forall₂_cons_right_iff.1 h
      cases hnil
      exact ⟨rfl, rfl⟩
    | true =>
      simp only [hdomain, hspawns] at h
      obtain ⟨a, attrs, ⟨t⟩, hrest, rfl⟩ := List.forall₂_cons_right_iff.1 h
      obtain ⟨a, attrs, ⟨⟩, hnil, rfl⟩ := List.forall₂_cons_right_iff.1 hrest
      cases hnil
      exact ⟨rfl, rfl⟩

/-- The tokens after the first of a dotted name. -/
theorem accepts_fields (ns : List Name) :
    (Rule.many (after (mark .dot) name)).Accepts (ns.flatMap fun n => [.mark .dot, .name n])
      fun ts => ts.map Token.text = ns := by
  have hfields : (Rule.many (after (mark .dot) name)).Accepts
      (ns.flatMap fun n => [.mark .dot, .name n]) fun ts => List.Forall₂ (·.text = ·) ts ns :=
    accepts_many fun m _ => (accepts_name m).after_mark
  refine hfields.mono ?_
  intro ts hts
  rwa [← List.forall₂_eq_eq_eq, List.forall₂_map_left_iff]

/-- The receiver is the value that the callee starts with. -/
theorem receiver_eq {f : Func} {scope : Scope} (hscope : f.Scoped scope) {c : Call} {t : Token}
    {ts : List Token} (h : c.callee.segments = t.text :: ts.map Token.text) :
    f.receiver? c.callee = if ts.isEmpty then none else (scope.value t).toOption := by
  rw [Func.receiver?, h]
  cases ts with
  | nil => rfl
  | cons u us => exact (hscope.value t).symm

section Statements

variable {types : Types} {f : Func} (hf : f.Expressible types)

include hf

/-- Tokens that spell values name them in the scope of the function. -/
theorem names_of_spells {scope : Scope} (hscope : f.Scoped scope) {ts : List Token}
    {vs : List Value} (hvs : ∀ v ∈ vs, v ∈ f.definitions) (h : List.Forall₂ Spells ts vs) :
    List.Forall₂ scope.Names ts vs := by
  induction h with
  | nil => exact .nil
  | cons ht _ ih =>
    rw [List.forall_mem_cons] at hvs
    exact .cons (hf.names hscope hvs.1 ht) (ih hvs.2)

/-- The words of a call are accepted, and mean the call in every scope of the
    function. -/
theorem accepts_call {c : Call} (hplain : (Op.call c).Plain f)
    (hargs : ∀ v ∈ c.args, v ∈ f.definitions) :
    Grammar.callExpr.Accepts c.words fun e =>
      ∀ scope, f.Scoped scope → ∀ loc, e.Means scope loc c.dest { c with loc } := by
  obtain ⟨n, ns, hsegments⟩ : ∃ n ns, c.callee.segments = n :: ns :=
    List.exists_cons_of_ne_nil (by simp [Text.segments, List.splitOn_ne_nil])
  have hwords : c.words = .keyword .call :: ([.name n] ++
      ((ns.flatMap fun n => [.mark .dot, .name n]) ++
        ((.mark .lpar :: commas (c.args.map Value.words) ++ [.mark .rpar]) ++
          c.attributes.flatMap attributeWords))) := by
    rw [Call.words, hsegments]
    rfl
  rw [hwords]
  refine ((accepts_name n).seq ((accepts_fields ns).seq ((accepts_names .lpar .rpar c.args).seq
    (accepts_many fun o _ => accepts_attribute o)))).after_word.map ?_
  rintro ⟨t, ts, args, attrs⟩ ⟨rfl, rfl, hspells, hattrs⟩ scope hscope loc
  obtain ⟨hdomain, hspawns⟩ := attributes_eq hattrs
  exact {
    callee := by rw [← Text.joined_segments c.callee, hsegments]; rfl
    args := names_of_spells hf hscope hargs hspells
    dest := rfl
    receiver := hplain.2.2.trans (receiver_eq hscope hsegments)
    domain := hdomain.symm
    spawns := hspawns.symm
    loc := rfl }

/-- A definition is written with its type. -/
theorem accepts_definition {d : Value} (hd : d ∈ f.definitions) {ws : List Word}
    {P : Rhs → Prop} (h : Grammar.rhs.Accepts ws P) {op : Op} (hop : op.dest? = some d)
    (hinit : ∀ t args, P (.init t args) → types.typeOf t.text = d.type)
    (hmeans : ∀ t w r, P r → t.text = d.name → ∀ scope, f.Scoped scope → ∀ loc,
      Stmt.Means scope loc (.assign t (some w) r) (op.withLoc loc)) :
    Grammar.stmt.Accepts (d.definedBy ws) (Stmt.Writes types f · op) := by
  have htype : (Rule.optional (after (mark .colon) name)).Accepts [.mark .colon, .name d.type.name]
      fun w => Option.Rel (·.text = ·) w (some d.type.name) :=
    accepts_optional (o := some d.type.name) fun n _ => (accepts_name n).after_mark
  refine Accepts.left (((accepts_name d.name).seq (htype.seq h.after_mark)).map ?_)
  rintro ⟨t, w, r⟩ ⟨ht, hw, hr⟩
  cases hw with
  | @some w n hw =>
    refine ⟨?_, hmeans t w r hr ht⟩
    rw [hop]
    refine .assign ht ?_ ?_
    · rw [hw, hf.typeOf hd]
    · rintro t args rfl
      exact hinit t args hr

/-- The words of an operation are accepted as a statement for it. -/
theorem accepts_op {op : Op} (hplain : op.Plain f) (hdest : ∀ d ∈ op.dest?, d ∈ f.definitions)
    (hoperands : ∀ e ∈ op.operands, e.1 ∈ f.definitions) :
    Grammar.stmt.Accepts op.words (Stmt.Writes types f · op) := by
  have hmap : ∀ (vs : List Value) (kind : AccessKind),
      (∀ e ∈ vs.map (·, kind), e.1 ∈ f.definitions) → ∀ v ∈ vs, v ∈ f.definitions :=
    fun vs kind h v hv => h (v, kind) (List.mem_map_of_mem hv)
  cases op with
  | init d args loc =>
    have hd := hdest d rfl
    have hrhs : Grammar.rhs.Accepts (.keyword .init :: ([.name d.type.name] ++
        (.mark .lpar :: commas (args.map Value.words) ++ [.mark .rpar]))) fun r =>
          ∃ t ts, r = .init t ts ∧ t.text = d.type.name ∧ List.Forall₂ Spells ts args := by
      refine Accepts.left (((accepts_name d.type.name).seq
        (accepts_names .lpar .rpar args)).after_word.map ?_)
      rintro ⟨t, ts⟩ ⟨ht, hts⟩
      exact ⟨t, ts, rfl, ht, hts⟩
    refine accepts_definition hf hd hrhs rfl ?_ ?_
    · rintro t ts ⟨_, _, ⟨⟩, ht, -⟩
      rw [ht, hf.typeOf hd]
    · rintro t w r ⟨u, ts, rfl, -, hts⟩ ht scope hscope loc
      exact .init (hf.names hscope hd ht) (names_of_spells hf hscope (hmap _ _ hoperands) hts)
  | load d base field loc =>
    have hd := hdest d rfl
    have hbase := hoperands (base, .read) (by simp [Op.operands])
    have hrhs : Grammar.rhs.Accepts [.keyword .load, .name base.name, .mark .dot, .name field]
        fun r => ∃ t u, r = .load t u ∧ t.text = base.name ∧ u.text = field := by
      refine Accepts.right (Accepts.left (((accepts_name base.name).seq
        (accepts_name field).after_mark).after_word.map ?_))
      rintro ⟨t, u⟩ ⟨ht, hu⟩
      exact ⟨t, u, rfl, ht, hu⟩
    refine accepts_definition hf hd hrhs rfl ?_ ?_
    · rintro t ts ⟨_, _, ⟨⟩, -⟩
    · rintro t w r ⟨u, u', rfl, hu, rfl⟩ ht scope hscope loc
      exact .load (hf.names hscope hd ht) (hf.names hscope hbase hu)
  | copy d src loc =>
    have hd := hdest d rfl
    have hsrc := hoperands (src, .read) (by simp [Op.operands])
    have hrhs : Grammar.rhs.Accepts [.keyword .copy, .name src.name]
        fun r => ∃ t, r = .copy t ∧ t.text = src.name := by
      refine Accepts.right (Accepts.right (Accepts.left ((accepts_name src.name).after_word.map ?_)))
      rintro t ht
      exact ⟨t, rfl, ht⟩
    refine accepts_definition hf hd hrhs rfl ?_ ?_
    · rintro t ts ⟨_, ⟨⟩, -⟩
    · rintro t w r ⟨u, rfl, hu⟩ ht scope hscope loc
      exact .copy (hf.names hscope hd ht) (hf.names hscope hsrc hu)
  | store base field value loc =>
    have hbase := hoperands (base, .write) (by simp [Op.operands])
    have hvalue := hoperands (value, .read) (by simp [Op.operands])
    refine Accepts.right (Accepts.left (((accepts_name base.name).seq
      ((accepts_name field).after_mark.seq (accepts_name value.name).after_mark)).after_word.map ?_))
    rintro ⟨t, u, v⟩ ⟨ht, rfl, hv⟩
    refine ⟨.other rfl, ?_⟩
    intro scope hscope loc
    exact .store (hf.names hscope hbase ht) (hf.names hscope hvalue hv)
  | closure d captures loc =>
    have hd := hdest d rfl
    have hrhs : Grammar.rhs.Accepts (.keyword .closure ::
        (.mark .lsqb :: commas (captures.map Value.words) ++ [.mark .rsqb])) fun r =>
          ∃ ts, r = .closure ts ∧ List.Forall₂ Spells ts captures := by
      refine Accepts.right (Accepts.right (Accepts.right (Accepts.left
        ((accepts_names .lsqb .rsqb captures).after_word.map ?_))))
      intro ts hts
      exact ⟨ts, rfl, hts⟩
    refine accepts_definition hf hd hrhs rfl ?_ ?_
    · rintro t ts ⟨_, ⟨⟩, -⟩
    · rintro t w r ⟨ts, rfl, hts⟩ ht scope hscope loc
      exact .closure (hf.names hscope hd ht)
        (names_of_spells hf hscope (hmap _ _ hoperands) hts)
  | call c =>
    have hargs : ∀ v ∈ c.args, v ∈ f.definitions :=
      fun v hv => hmap _ _ hoperands v (List.mem_append_right _ hv)
    have hcall := accepts_call hf hplain hargs
    cases hc : c.dest with
    | none =>
      rw [Op.words, hc]
      refine Accepts.right (Accepts.right (Accepts.left (hcall.map ?_)))
      intro e he
      refine ⟨?_, ?_⟩
      · rw [Op.dest?, hc]
        exact .other rfl
      · intro scope hscope loc
        exact .call (hc ▸ he scope hscope loc)
    | some d =>
      have hd := hdest d hc
      have hrhs : Grammar.rhs.Accepts c.words fun r => ∃ e, r = .call e ∧
          ∀ scope, f.Scoped scope → ∀ loc, e.Means scope loc c.dest { c with loc } := by
        refine Accepts.right (Accepts.right (Accepts.right (Accepts.right (hcall.map ?_))))
        intro e he
        exact ⟨e, rfl, he⟩
      rw [Op.words, hc]
      refine accepts_definition hf hd hrhs hc ?_ ?_
      · rintro t ts ⟨_, ⟨⟩, -⟩
      · rintro t w r ⟨e, rfl, he⟩ ht scope hscope loc
        exact .result (hf.names hscope hd ht) (hc ▸ he scope hscope loc)
  | use v kind loc =>
    have hv := hoperands (v, kind) (by simp [Op.operands])
    rcases hplain with rfl | rfl
    · refine Accepts.right (Accepts.right (Accepts.right (Accepts.left
        ((accepts_name v.name).after_word.map ?_))))
      intro t ht
      exact ⟨.other rfl, fun scope hscope loc => .use (hf.names hscope hv ht)⟩
    · refine Accepts.right (Accepts.right (Accepts.right (Accepts.right
        ((accepts_name v.name).after_word.map ?_))))
      intro t ht
      exact ⟨.other rfl, fun scope hscope loc => .write (hf.names hscope hv ht)⟩

/-- An optional value is written as a name. -/
theorem names_of_rel {scope : Scope} (hscope : f.Scoped scope) {t : Option Token}
    {v : Option Value} {kind : AccessKind}
    (hv : ∀ e ∈ v.toList.map (·, kind), e.1 ∈ f.definitions) (h : Option.Rel Spells t v) :
    Option.Rel scope.Names t v := by
  cases h with
  | none => exact .none
  | @some t v ht => exact .some (hf.names hscope (hv (v, kind) (by simp)) ht)

/-- The words of a terminator are accepted as an exit for it. -/
theorem accepts_terminator {t : Terminator} (hplain : t.Plain)
    (hoperands : ∀ e ∈ t.operands, e.1 ∈ f.definitions) :
    Grammar.exit.Accepts t.words (Exit.Writes f · t) := by
  cases t with
  | goto target loc =>
    refine Accepts.left ((accepts_label target).after_word.map ?_)
    rintro t rfl scope hscope loc
    exact .goto t
  | branch targets cond loc =>
    obtain ⟨n, n', ns, rfl⟩ : ∃ n n' ns, targets = n :: n' :: ns := by
      match targets, hplain with
      | n :: n' :: ns, _ => exact ⟨n, n', ns, rfl⟩
    have hcond : (Rule.optional (before name (mark .qmark))).Accepts
        (cond.toList.flatMap fun v => [.name v.name, .mark .qmark]) fun t => Option.Rel Spells t cond :=
      accepts_optional fun v _ => (accepts_value v).before_mark
    have htargets : (Rule.seq label (after (mark .comma) (commaList label))).Accepts
        (commas ((n :: n' :: ns).map fun n => [.label n])) fun p =>
          (p.1 :: p.2.1 :: p.2.2).map labelName = n :: n' :: ns := by
      have hrest := accepts_commaList (x := n') (l := ns) fun m _ => accepts_label m
      refine ((accepts_label n).seq hrest.after_mark).mono ?_
      rintro ⟨t, u, us⟩ ⟨rfl, rfl, hus⟩
      have hmap : us.map labelName = ns := by
        rwa [← List.forall₂_eq_eq_eq, List.forall₂_map_left_iff]
      rw [← hmap]
      rfl
    refine Accepts.right (Accepts.left ((hcond.seq htargets).after_word.map ?_))
    rintro ⟨c, t, u, us⟩ ⟨hc, hlabels⟩ scope hscope loc
    rw [← hlabels]
    exact .branch (names_of_rel hf hscope hoperands hc)
  | ret value loc =>
    refine Accepts.right (Accepts.right (Accepts.left
      ((accepts_optional fun v _ => accepts_value v).after_word.map ?_)))
    intro t ht scope hscope loc
    exact .ret (names_of_rel hf hscope hoperands ht)
  | throw value handler loc =>
    have hhandler : (Rule.optional (after (word .toHandler) label)).Accepts
        (handler.toList.flatMap fun n => [.keyword .toHandler, .label n])
        fun t => t.map labelName = handler := by
      refine (accepts_optional fun n _ => (accepts_label n).after_word).mono ?_
      intro t ht
      cases ht with
      | none => rfl
      | some ht => exact congrArg some ht
    refine Accepts.right (Accepts.right (Accepts.right (Accepts.left
      (((accepts_optional fun v _ => accepts_value v).seq hhandler).after_word.map ?_))))
    rintro ⟨t, h⟩ ⟨ht, rfl⟩ scope hscope loc
    exact .throw (names_of_rel hf hscope hoperands ht)
  | unreachable loc =>
    refine Accepts.right (Accepts.right (Accepts.right (Accepts.right
      ((accepts_word .unreachable).map ?_))))
    intro _ _ scope _ loc
    exact .unreachable

end Statements

-- ============================================================================
-- Blocks and functions
-- ============================================================================

/-- A labelled block was written for a block of a function. -/
structure BlockTree.Writes (types : Types) (f : Func) (tree : BlockTree) (b : Block) : Prop where
  label : labelName tree.label = b.name
  stmts : List.Forall₂ (fun s op => s.node.Writes types f op) tree.stmts b.ops
  exit : ∃ t, b.terminator = some t ∧ tree.exit.node.Writes f t

/-- A tree was written for a function. -/
structure FuncTree.Writes (types : Types) (tree : FuncTree) (f : Func) : Prop where
  name : tree.name.text = f.name
  params : List.Forall₂ (fun p v => p.name.text = v.name ∧ types.typeOf p.type.text = v.type)
    tree.params f.params
  domain : tree.domain.text = f.domain
  blocks : List.Forall₂ (BlockTree.Writes types f) tree.blocks f.blocks.values

/-- The words of a block are accepted as a tree for it. -/
theorem accepts_block {types : Types} {f : Func} (hf : f.Expressible types) {b : Block}
    (hb : b ∈ f.blocks.values) :
    Grammar.block.Accepts b.words (BlockTree.Writes types f · b) := by
  have hexpr := hf.blocks b hb
  obtain ⟨t, ht⟩ := Option.isSome_iff_exists.1 hexpr.terminated
  have hops : (Rule.many (located Grammar.stmt)).Accepts (b.ops.flatMap Op.words) fun l =>
      List.Forall₂ (fun s op => s.node.Writes types f op) l b.ops := by
    refine accepts_many fun op hop => (accepts_op hf (hexpr.ops op hop)
      (Func.mem_definitions_of_op hb hop) ?_).located
    exact hexpr.operands _ (by simpa [Block.operandLists] using .inl ⟨op, hop, rfl⟩)
  have hexit : (located Grammar.exit).Accepts t.words fun e => e.node.Writes f t :=
    (accepts_terminator hf (hexpr.plain t ht)
      (hexpr.operands _ (by simp [Block.operandLists, ht]))).located
  have hwords : b.words =
      ([.label b.name] ++ [.mark .colon]) ++ (b.ops.flatMap Op.words ++ t.words) := by
    rw [Block.words, ht, Option.toList_some, List.flatMap_singleton]
    rfl
  rw [hwords]
  refine ((accepts_label b.name).before_mark.seq (hops.seq hexit)).map ?_
  rintro ⟨l, ss, e⟩ ⟨hl, hss, he⟩
  exact ⟨hl, hss, t, ht, he⟩

theorem accepts_param {types : Types} {f : Func} (hf : f.Expressible types) {v : Value}
    (hv : v ∈ f.definitions) : Grammar.param.Accepts v.typedWords fun p =>
      p.name.text = v.name ∧ types.typeOf p.type.text = v.type := by
  refine ((accepts_name v.name).seq (accepts_name v.type.name).after_mark).map ?_
  rintro ⟨n, t⟩ ⟨hn, ht⟩
  exact ⟨hn, by rw [ht, hf.typeOf hv]⟩

/-- The words of a function are accepted as a tree for it. -/
theorem accepts_func {types : Types} {f : Func} (hf : f.Expressible types) :
    Grammar.func.Accepts f.words (FuncTree.Writes types · f) := by
  obtain ⟨b, bs, hblocks⟩ : ∃ b bs, f.blocks.values = b :: bs := by
    have hentry := hf.entry
    rw [Table.keys] at hentry
    rw [Table.values]
    cases hentries : f.blocks.entries with
    | nil => simp [hentries] at hentry
    | cons e es => exact ⟨e.2, es.map Prod.snd, rfl⟩
  have hblock : ∀ c ∈ f.blocks.values, Grammar.block.Accepts c.words (BlockTree.Writes types f · c) :=
    fun c hc => accepts_block hf hc
  rw [hblocks, List.forall_mem_cons] at hblock
  have hparams := (accepts_commaList? fun v hv =>
    accepts_param hf (List.mem_append_left _ hv : v ∈ f.definitions)).between_marks
      .lpar .rpar
  have hbody := (hblock.1.seq (accepts_many hblock.2)).between_marks .lbrace .rbrace
  have hwords : f.words = .keyword .func :: ([.name f.name] ++
      ((.mark .lpar :: commas (f.params.map Value.typedWords) ++ [.mark .rpar]) ++
        ([.keyword .inDomain, .name f.domain] ++
          (.mark .lbrace :: (b.words ++ bs.flatMap Block.words) ++ [.mark .rbrace])))) := by
    simp [Func.words, hblocks]
  rw [hwords]
  refine ((accepts_name f.name).seq (hparams.seq ((accepts_name f.domain).after_word.seq
    hbody))).after_word.map ?_
  rintro ⟨n, ps, d, c, cs⟩ ⟨hn, hps, hd, hc, hcs⟩
  exact ⟨hn, hps, hd, by rw [hblocks]; exact .cons hc hcs⟩

-- ============================================================================
-- The types of a written function
-- ============================================================================

section Collecting

variable {types : Types} {scope : Scope} {known : Name → Option TypeInfo}

theorem defineAssign_of_known {d w : Token} {rhs : Rhs} {v : Value}
    (h : Stmt.Declares types (.assign d (some w) rhs) (some v)) (pending : List PendingCopy) :
    defineAssign types scope pending d (some w) rhs =
      (do let scope ← scope.define d v.type; return (scope, pending)) := by
  cases h with
  | assign hname htype hinit =>
    cases rhs with
    | init t args =>
      simp only [defineAssign, Option.map_some, htype, hinit t args rfl, if_true]
    | load base field => simp only [defineAssign, Option.map_some, htype]
    | copy src => simp only [defineAssign, Option.map_some, htype]
    | closure captures => simp only [defineAssign, Option.map_some, htype]
    | call e => simp only [defineAssign, Option.map_some, htype]

theorem defineStmts_of_known {l : List (Located Stmt)} {ops : List Op}
    (hl : List.Forall₂ (fun s op => s.node.Declares types op.dest?) l ops)
    (hknown : ∀ op ∈ ops, ∀ d ∈ op.dest?, known d.name = some d.type) (h : scope.Within known) :
    ∃ out, defineStmts types scope [] l = .ok (out, []) ∧ out.Within known := by
  induction hl generalizing scope with
  | nil => exact ⟨scope, rfl, h⟩
  | @cons s op l ops hs _ ih =>
    rw [List.forall_mem_cons] at hknown
    obtain ⟨start, stop, stmt⟩ := s
    cases hop : op.dest? with
    | none =>
      simp only [hop] at hs
      cases hs with
      | other hnone =>
        cases stmt with
        | assign d w rhs => cases hnone
        | store base field value => exact ih hknown.2 h
        | call e => exact ih hknown.2 h
        | use v => exact ih hknown.2 h
        | write v => exact ih hknown.2 h
    | some v =>
      simp only [hop] at hs
      have hassign := hs
      cases hs with
      | @assign d w rhs _ hname htype hinit =>
        obtain ⟨mid, hdefine, hmid⟩ := define_of_known h (hname ▸ hknown.1 v hop)
        obtain ⟨out, hrest, hout⟩ := ih hknown.2 hmid
        refine ⟨out, ?_, hout⟩
        simp only [defineStmts, defineAssign_of_known hassign, hdefine, bind, Except.bind, pure,
          Except.pure, hrest]

end Collecting

section Building

variable {types : Types} {f : Func} {scope : Scope} {file : Option Text}

/-- The statements of a written function, one for an operation. -/
theorem FuncTree.Writes.stmts {tree : FuncTree} (h : tree.Writes types f) :
    List.Forall₂ (fun s op => s.node.Writes types f op) (tree.blocks.flatMap BlockTree.stmts)
      (f.blocks.values.flatMap Block.ops) := by
  have hblocks := h.blocks
  generalize tree.blocks = trees, f.blocks.values = bs at hblocks
  induction hblocks with
  | nil => exact .nil
  | cons hb _ ih => exact List.rel_append hb.stmts ih

/-- The first pass over a written function collects its types. -/
theorem FuncTree.Writes.scoped {tree : FuncTree} (h : tree.Writes types f)
    (hf : f.Expressible types) :
    ∃ scope, tree.scope types = .ok (f.params, scope) ∧ f.Scoped scope := by
  have hempty : Scope.Within {} f.typeOf? := fun n type hn => by cases hn
  have hparams : ∀ v ∈ f.params, f.typeOf? v.name = some v.type :=
    fun v hv => hf.typeOf?_eq (List.mem_append_left _ hv)
  have hops : ∀ op ∈ f.blocks.values.flatMap Block.ops, ∀ d ∈ op.dest?, d ∈ f.definitions := by
    intro op hop
    obtain ⟨b, hb, hop⟩ := List.mem_flatMap.1 hop
    exact Func.mem_definitions_of_op hb hop
  have hdeclares : List.Forall₂ (fun s op => s.node.Declares types op.dest?)
      (tree.blocks.flatMap BlockTree.stmts) (f.blocks.values.flatMap Block.ops) :=
    h.stmts.imp fun s op hs => hs.declares
  obtain ⟨s, hs, hwithin⟩ := defineParams_of_known h.params hparams hf.params
    (fun v _ => by simp [Table.keys]) hempty
  obtain ⟨out, hout, hwithin⟩ := defineStmts_of_known hdeclares
    (fun op hop d hd => hf.typeOf?_eq (hops op hop d hd)) hwithin
  have hscope : tree.scope types = .ok (f.params, out) := by
    simp only [FuncTree.scope, hs, hout, bind, Except.bind, resolveCopies, resolveRound]
    rfl
  refine ⟨out, hscope, ?_⟩
  intro n
  cases htype : f.typeOf? n with
  | none =>
    cases hget : out.get? n with
    | none => rfl
    | some type =>
      rw [hwithin n type hget] at htype
      cases htype
  | some type =>
    -- a definition with the name was collected, and with no other type
    obtain ⟨v, hfind, rfl⟩ := Option.map_eq_some_iff.1 htype
    have hname : v.name = n := by simpa using List.find?_some hfind
    have hmem : n ∈ out.keys := by
      rw [(scope_ok hscope).2, ← hname]
      rcases List.mem_append.1 (List.mem_of_find?_eq_some hfind) with hv | hv
      · exact .inl (List.mem_map_of_mem hv)
      · refine .inr ?_
        obtain ⟨b, hb, hv⟩ := List.mem_flatMap.1 hv
        obtain ⟨op, hop, hv⟩ := List.mem_filterMap.1 hv
        obtain ⟨s, hs, hdeclares⟩ := exists_of_forall₂ hdeclares
          (List.mem_flatMap.2 ⟨b, hb, hop⟩)
        rw [hv] at hdeclares
        refine List.mem_filterMap.2 ⟨s, hs, ?_⟩
        generalize s.node = stmt at hdeclares
        cases hdeclares with
        | assign hd _ _ => exact congrArg some hd
    obtain ⟨type, hget⟩ := Option.isSome_iff_exists.1 ((Table.mem_keys_iff out n).1 hmem)
    rw [hget, ← htype, hwithin n type hget]

/-- What is built element by element is what it was written for, up to a view of
    the elements. -/
theorem exists_built {α β γ : Type} {R S : α → β → Prop} {view : β → γ} {l : List α}
    {l' : List β} (h : List.Forall₂ R l l')
    (hRS : ∀ a, ∀ b ∈ l', R a b → ∃ b', S a b' ∧ view b' = view b) :
    ∃ out, List.Forall₂ S l out ∧ out.map view = l'.map view := by
  induction h with
  | nil => exact ⟨[], .nil, rfl⟩
  | cons hab _ ih =>
    obtain ⟨b', hb', hview⟩ := hRS _ _ (by simp) hab
    obtain ⟨out, hout, hviews⟩ := ih fun a b hb => hRS a b (List.mem_cons_of_mem _ hb)
    exact ⟨b' :: out, .cons hb' hout, by rw [List.map_cons, List.map_cons, hview, hviews]⟩

/-- A tree that was written for a block means the block, but for its places. -/
theorem BlockTree.Writes.built {tree : BlockTree} {b : Block} (h : tree.Writes types f b)
    (hscope : f.Scoped scope) :
    ∃ b', tree.Means file scope (b.name, b') ∧ b'.unlocated = b.unlocated := by
  obtain ⟨t, ht, hexit⟩ := h.exit
  obtain ⟨ops, hops, hviews⟩ : ∃ ops, List.Forall₂ (fun s op => s.node.Means scope
      (Fault.nodeSpan file s.start s.stop) op) tree.stmts ops ∧
        ops.map (Op.withLoc {}) = b.ops.map (Op.withLoc {}) :=
    exists_built h.stmts fun s op _ hs =>
      ⟨_, hs.means scope hscope (Fault.nodeSpan file s.start s.stop), op.withLoc_withLoc _ {}⟩
  refine ⟨⟨b.name, ops, some (t.withLoc _)⟩, ⟨h.label.symm, rfl, hops, _, rfl,
    hexit scope hscope _⟩, ?_⟩
  rw [Block.unlocated, Block.unlocated, ht, hviews, Option.map_some, Option.map_some,
    t.withLoc_withLoc]

/-- The second pass over a written function gives the function back. -/
theorem FuncTree.Writes.built {tree : Located FuncTree} (h : tree.node.Writes types f)
    (hf : f.Expressible types) :
    ∃ g, buildFunc file types tree = .ok g ∧ g.unlocated = f.unlocated := by
  obtain ⟨scope, hscope, hscoped⟩ := h.scoped hf
  have hblocks := h.blocks
  rw [Table.values, List.forall₂_map_right_iff] at hblocks
  obtain ⟨out, hout, hviews⟩ : ∃ out, List.Forall₂ (BlockTree.Means file scope) tree.node.blocks out ∧
      out.map (fun e => (e.1, e.2.unlocated)) =
        f.blocks.entries.map fun e => (e.1, e.2.unlocated) := by
    refine exists_built hblocks ?_
    rintro t ⟨k, b⟩ he ht
    obtain ⟨b', hb', hview⟩ := ht.built hscoped
    rw [hf.keyed _ he] at hb'
    exact ⟨(k, b'), hb', by rw [hview]⟩
  have hkeys : out.map Prod.fst = f.blocks.entries.map Prod.fst := by
    simpa [Function.comp_def] using congrArg (List.map Prod.fst) hviews
  have hentry : f.entry = labelName tree.node.entry.label := by
    have hhead := hf.entry
    rw [Table.keys, ← hkeys] at hhead
    cases hout with
    | cons he _ => rw [← he.key, ← Option.some.inj hhead]
  refine ⟨{ f with
    blocks := ⟨out, by rw [hkeys]; exact f.blocks.nodup⟩
    loc := Fault.nodeSpan file tree.start tree.stop }, ?_, ?_⟩
  · exact buildFunc_ok_iff.2 ⟨f.params, scope, hscope, h.name.symm, rfl, h.domain.symm, hout, hentry,
      rfl⟩
  · simp only [Func.unlocated, Table.mapValues, hviews]

end Building

-- ============================================================================
-- Programs
-- ============================================================================

section Programs

variable {types : Types} {file : Option Text}

/-- A declaration was written for an entry of the declared types. -/
def Item.DeclaresType (item : Item) (e : Name × TypeInfo) : Prop :=
  ∃ t : TypeTree, item = .type t ∧ t.name.text = e.1 ∧ (⟨e.1, t.sendable⟩ : TypeInfo) = e.2

/-- A declaration was written for a function. -/
def Item.DeclaresFunc (types : Types) (item : Item) (f : Func) : Prop :=
  ∃ tree, item = .func tree ∧ tree.node.Writes types f

theorem accepts_type {e : Name × TypeInfo} (hkey : e.2.name = e.1) :
    (Rule.map Item.type Grammar.typeDecl).Accepts e.2.words fun item => item.DeclaresType e := by
  obtain ⟨k, n, sendable⟩ := e
  obtain rfl : n = k := hkey
  have hsendable : (Rule.optional (word .sendable)).Accepts
      (if sendable then [.keyword .sendable] else []) fun o => o.isSome = sendable := by
    intro ts hts
    cases sendable with
    | false =>
      obtain rfl : ts = [] := List.map_eq_nil_iff.1 hts
      exact ⟨none, rfl, rfl⟩
    | true =>
      obtain ⟨u, hu, -⟩ := accepts_word .sendable ts hts
      exact ⟨some u, hu, rfl⟩
  have hdecl : Grammar.typeDecl.Accepts (TypeInfo.words ⟨n, sendable⟩) fun t =>
      t.name.text = n ∧ t.sendable = sendable :=
    ((accepts_name n).seq hsendable).after_word.map fun _ h => h
  refine hdecl.map ?_
  rintro t ⟨hname, hsend⟩
  exact ⟨t, rfl, hname, by rw [hsend]⟩

/-- The words of a program are accepted as its types and then its functions. -/
theorem accepts_items {p : Program} (hp : p.Expressible) :
    Grammar.items.Accepts p.words fun items => ∃ decls funcs, items = decls ++ funcs ∧
      List.Forall₂ Item.DeclaresType decls p.types.entries ∧
      List.Forall₂ (Item.DeclaresFunc p.types) funcs p.functions := by
  -- a whole text is one repetition, over the types and the functions together
  let w : (Name × TypeInfo) ⊕ Func → List Word := Sum.elim (fun e => e.2.words) Func.words
  let R : Item → (Name × TypeInfo) ⊕ Func → Prop := fun item =>
    Sum.elim item.DeclaresType (item.DeclaresFunc p.types)
  have hmany : Grammar.items.Accepts
      ((p.types.entries.map Sum.inl ++ p.functions.map Sum.inr).flatMap w)
      fun items => List.Forall₂ R items (p.types.entries.map Sum.inl ++ p.functions.map Sum.inr) := by
    refine accepts_many fun x hx => ?_
    rcases List.mem_append.1 hx with hx | hx
    · obtain ⟨e, he, rfl⟩ := List.mem_map.1 hx
      exact (accepts_type (hp.types e he).2).left
    · obtain ⟨f, hf, rfl⟩ := List.mem_map.1 hx
      exact ((accepts_func (hp.functions f hf)).located.map fun tree h => ⟨tree, rfl, h⟩).right
  have hwords : (p.types.entries.map Sum.inl ++ p.functions.map Sum.inr).flatMap w = p.words := by
    simp only [List.flatMap_append, List.flatMap_map, Program.words, Table.values]
    rfl
  rw [hwords] at hmany
  refine hmany.mono ?_
  intro items hitems
  refine ⟨items.take p.types.entries.length, items.drop p.types.entries.length,
    (List.take_append_drop _ _).symm, ?_, ?_⟩
  · have h := List.forall₂_take_append _ _ _ hitems
    rw [List.length_map, List.forall₂_map_right_iff] at h
    exact h
  · have h := List.forall₂_drop_append _ _ _ hitems
    rw [List.length_map, List.forall₂_map_right_iff] at h
    exact h

/-- The declared types are entered in the order of the text. -/
theorem declareTypes_written {decls funcs : List Item} {l : List (Name × TypeInfo)} {acc : Types}
    (hdecls : List.Forall₂ Item.DeclaresType decls l)
    (hfuncs : ∀ item ∈ funcs, ∃ tree, item = .func tree) (hl : types.entries = acc.entries ++ l) :
    declareTypes acc (decls ++ funcs) = .ok types := by
  induction hdecls generalizing acc with
  | nil =>
    have hacc : acc = types := by
      obtain ⟨entries, hnodup⟩ := types
      obtain ⟨entries', hnodup'⟩ := acc
      rw [List.append_nil] at hl
      cases hl
      rfl
    rw [List.nil_append, hacc]
    clear hl hacc
    induction funcs with
    | nil => rfl
    | cons item funcs ih =>
      rw [List.forall_mem_cons] at hfuncs
      obtain ⟨tree, rfl⟩ := hfuncs.1
      exact ih hfuncs.2
  | @cons item e decls l hitem _ ih =>
    obtain ⟨t, rfl, hname, hinfo⟩ := hitem
    -- the key is new, since the table of the program has it once
    have hfresh : e.1 ∉ acc.keys := by
      have hnodup := types.nodup
      rw [hl, List.map_append, List.nodup_append] at hnodup
      intro hmem
      exact hnodup.2.2 _ hmem e.1 (by simp) rfl
    rw [List.cons_append, declareTypes, hname, hinfo,
      if_neg (by rwa [Table.contains_iff])]
    apply ih
    rw [entries_insert hfresh, hl, List.append_assoc]
    rfl

/-- The functions are built in the order of the text. -/
theorem buildFuncs_written {decls funcs : List Item} {fs : List Func} {seen : List Name}
    (hdecls : ∀ item ∈ decls, ∃ t, item = .type t)
    (hfuncs : List.Forall₂ (Item.DeclaresFunc types) funcs fs) (hfs : ∀ f ∈ fs, f.Expressible types)
    (hnodup : (fs.map Func.name).Nodup) (hseen : ∀ f ∈ fs, f.name ∉ seen) :
    ∃ gs, buildFuncs file types seen (decls ++ funcs) = .ok gs ∧
      gs.map Func.unlocated = fs.map Func.unlocated := by
  induction decls with
  | cons item decls ih =>
    rw [List.forall_mem_cons] at hdecls
    obtain ⟨t, rfl⟩ := hdecls.1
    exact ih hdecls.2
  | nil =>
    induction hfuncs generalizing seen with
    | nil => exact ⟨[], rfl, rfl⟩
    | @cons item f funcs fs hitem _ ih =>
      rw [List.forall_mem_cons] at hfs hseen
      rw [List.map_cons, List.nodup_cons] at hnodup
      obtain ⟨tree, rfl, hwrites⟩ := hitem
      obtain ⟨g, hg, hview⟩ : ∃ g, buildFunc file types tree = .ok g ∧ g.unlocated = f.unlocated :=
        hwrites.built hfs.1
      have hname : g.name = f.name := by
        have hnames := congrArg Func.name hview
        exact hnames
      have hrest : ∀ h ∈ fs, h.name ∉ g.name :: seen := by
        intro h hh hmem
        rcases List.mem_cons.1 hmem with heq | hmem
        · exact hnodup.1 (hname ▸ heq ▸ List.mem_map_of_mem hh)
        · exact hseen.2 h hh hmem
      obtain ⟨gs, hgs, hviews⟩ := ih hfs.2 hnodup.2 hrest
      refine ⟨g :: gs, ?_, by rw [List.map_cons, List.map_cons, hview, hviews]⟩
      rw [List.nil_append] at hgs ⊢
      have hfresh : g.name ∉ seen := hname ▸ hseen.1
      simp only [buildFuncs, hg, bind, Except.bind, hfresh, if_false, hgs]
      rfl

end Programs

end Sendability.Source

namespace Sendability

open Source

/-- A program that can be written is read back from every text that has its words:
    the same types and the same functions, up to places. -/
theorem Program.parse_words {p : Program} (hp : p.Expressible) {text : Text}
    (htext : Spaced p.words text.points) (file : Option Text) :
    ∃ q, Program.parse text file = .ok q ∧ q.types = p.types ∧
      q.functions.map Func.unlocated = p.functions.map Func.unlocated := by
  obtain ⟨ts, hscan, hwords⟩ := Program.scan_words hp htext
  obtain ⟨items, hderives, decls, funcs, rfl, hdecls, hfuncs⟩ := accepts_items hp ts hwords
  have hread : readItems text = .ok (decls ++ funcs) := by
    have hitems := Rule.read_of_derives _ Grammar.predictive_items hderives
      (by simp : ∀ t ∈ ([] : List Token).head?, Grammar.items.follows t.kind = false)
    rw [List.append_nil] at hitems
    rw [readItems, hscan]
    simp only [hitems]
    rfl
  have hdecls' : ∀ item ∈ decls, ∃ t, item = .type t := by
    intro item hitem
    obtain ⟨e, -, t, ht, -⟩ := exists_of_forall₂ hdecls.flip hitem
    exact ⟨t, ht⟩
  have hfuncs' : ∀ item ∈ funcs, ∃ tree, item = .func tree := by
    intro item hitem
    obtain ⟨f, -, tree, htree, -⟩ := exists_of_forall₂ hfuncs.flip hitem
    exact ⟨tree, htree⟩
  have htypes : declareTypes {} (decls ++ funcs) = .ok p.types :=
    declareTypes_written hdecls hfuncs' rfl
  obtain ⟨gs, hgs, hviews⟩ : ∃ gs, buildFuncs file p.types [] (decls ++ funcs) = .ok gs ∧
      gs.map Func.unlocated = p.functions.map Func.unlocated :=
    buildFuncs_written hdecls' hfuncs hp.functions hp.names (by simp)
  refine ⟨⟨gs, p.types, file⟩, ?_, rfl, hviews⟩
  simp only [Program.parse, buildProgram, hread, htypes, hgs, bind, Except.bind]
  rfl

/-- A program with a call that has a receiver, a domain and a result, a branch back
    and a name that begins with a keyword. -/
def courier : Program :=
  let msg : TypeInfo := { name := "Msg" }
  let id : TypeInfo := { name := "Id", sendable := true }
  let m : Value := ⟨"m", msg⟩
  let k : Value := ⟨"k", id⟩
  let r : Value := ⟨"returned", msg⟩
  let entry : Block := {
    name := "entry"
    ops := [.call { callee := "m.send", args := [k], dest := some r, receiver := some m
                    domain := some (Text.ofString "worker"), spawns := true }]
    terminator := some (.branch ["entry", "to"] (some k) {}) }
  let last : Block := {
    name := "to"
    ops := [.use r .write {}]
    terminator := some (.throw (some r) none {}) }
  { functions := [{ name := "post", params := [m, k], domain := "main"
                    blocks := .ofList [("entry", entry), ("to", last)] }]
    types := .ofList [("Id", id)] }

theorem courier_expressible : courier.Expressible where
  types := by decide
  names := by decide
  functions := by
    intro f hf
    obtain rfl := List.mem_singleton.1 hf
    exact {
      name := by decide
      domain := by decide
      values := by decide +kernel
      oneType := by decide +kernel
      params := by decide
      entry := by decide
      keyed := by decide +kernel
      blocks := by decide +kernel }

theorem courier_read_back : courier.Expressible ∧ ∃ q,
    Program.parse (spaceOut courier.words) none = .ok q ∧ q.types = courier.types ∧
      q.functions.map Func.unlocated = courier.functions.map Func.unlocated :=
  ⟨courier_expressible, Program.parse_words courier_expressible (spaced_spaceOut _) none⟩

end Sendability
