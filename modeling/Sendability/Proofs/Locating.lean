/-
  Spans locate what they are spans of.

  The tokens of a text that is read fall into the tokens of its functions, with
  others between them, and those of a function into the tokens of its statements and
  exits. `Strewn` says so for any relation between runs of tokens and what they stand
  for, and `Rule.Spreads` carries it through the rules of the grammar.

  The span of such a piece goes from its first token to its last, marks that carry no
  meaning included (`Span.Frames`). Since tokens come in the order of their places,
  spans are ordered as the pieces are; and since a run of tokens is found again in
  the excerpt between its ends, the excerpt between the ends of a span has the words
  of its piece (`Span.Marks`).
-/

import Mathlib.Data.List.Forall2
import Sendability.Proofs.Elaboration
import Sendability.Proofs.Excerpts
import Sendability.Proofs.Productions

namespace Sendability

-- ============================================================================
-- Spans
-- ============================================================================

namespace Span

/-- The line and the column where a span starts, if both are known. -/
def start? (s : Span) : Option (Int ×ₗ Int) :=
  s.line.bind fun l => s.column.map fun c => toLex (l, c)

/-- The line and the column where a span stops, if both are known. -/
def stop? (s : Span) : Option (Int ×ₗ Int) :=
  s.endLine.bind fun l => s.endColumn.map fun c => toLex (l, c)

/-- Both ends are known, and the start is before the stop. -/
def Proper (s : Span) : Prop := ∃ a ∈ s.start?, ∃ b ∈ s.stop?, a < b

/-- The first span stops before the second starts, or just there. -/
def Precedes (s t : Span) : Prop := ∃ b ∈ s.stop?, ∃ a ∈ t.start?, b ≤ a

/-- The first span lies within the second. -/
def Inside (s t : Span) : Prop :=
  (∃ a ∈ t.start?, ∃ a' ∈ s.start?, a ≤ a') ∧ ∃ b' ∈ s.stop?, ∃ b ∈ t.stop?, b' ≤ b

/-- The characters of the text between the ends of the span scan to the words of some
    tokens. -/
def Marks (s : Span) (text : Text) (ts : List Source.Token) : Prop :=
  ∃ a ∈ s.start?, ∃ b ∈ s.stop?, ∃ found,
    Source.scan ⟨Source.excerpt text.points a b⟩ = ⟨found, none⟩ ∧
      found.map Source.Token.word = ts.map Source.Token.word

end Span

end Sendability

namespace Sendability.Source

variable {α β γ : Type} {ts us vs pre post : List Token}

-- ============================================================================
-- Strewn pieces
-- ============================================================================

/-- Some tokens have pieces for all elements of a list, one after the other and with
    any tokens between them. -/
def Strewn (D : List Token → α → Prop) : List Token → List α → Prop
  | _, [] => True
  | ts, a :: as => ∃ gap us rest, ts = gap ++ us ++ rest ∧ D us a ∧ Strewn D rest as

section Strewn

variable {D : List Token → α → Prop} {E : List Token → β → Prop} {as bs : List α}

theorem Strewn.after_gap (h : Strewn D ts as) (gap : List Token) : Strewn D (gap ++ ts) as := by
  cases as with
  | nil => trivial
  | cons a as =>
    obtain ⟨gap', us, rest, rfl, ha, has⟩ := h
    exact ⟨gap ++ gap', us, rest, by simp, ha, has⟩

theorem Strewn.before_gap (h : Strewn D ts as) (gap : List Token) : Strewn D (ts ++ gap) as := by
  induction as generalizing ts with
  | nil => trivial
  | cons a as ih =>
    obtain ⟨gap', us, rest, rfl, ha, has⟩ := h
    exact ⟨gap', us, rest ++ gap, by simp, ha, ih has⟩

/-- What is strewn over two stretches is strewn over both together. -/
theorem Strewn.append (h : Strewn D us as) (h' : Strewn D vs bs) :
    Strewn D (us ++ vs) (as ++ bs) := by
  induction as generalizing us with
  | nil => exact h'.after_gap us
  | cons a as ih =>
    obtain ⟨gap, us', rest, rfl, ha, has⟩ := h
    exact ⟨gap, us', rest ++ vs, by simp, ha, ih has⟩

/-- What is strewn over the parts is strewn over the whole. -/
theorem Strewn.flatMap {g : α → List β} (h : Parts D ts as)
    (hg : ∀ us a, D us a → Strewn E us (g a)) : Strewn E ts (as.flatMap g) := by
  induction as generalizing ts with
  | nil => trivial
  | cons a as ih =>
    obtain ⟨us, vs, rfl, ha, has⟩ := h
    exact (hg us a ha).append (ih has)

/-- The pieces of elements are those of what the elements are related to. -/
theorem Strewn.of_forall₂ {R : α → β → Prop} {l : List β} (h : Strewn D ts as)
    (hl : List.Forall₂ R as l) : Strewn (fun us b => ∃ a, D us a ∧ R a b) ts l := by
  induction hl generalizing ts with
  | nil => trivial
  | cons hab _ ih =>
    obtain ⟨gap, us, rest, rfl, ha, has⟩ := h
    exact ⟨gap, us, rest, rfl, ⟨_, ha, hab⟩, ih has⟩

/-- Every element has its piece. -/
theorem Strewn.exists_piece (h : Strewn D ts as) {a : α} (ha : a ∈ as) :
    ∃ pre us post, ts = pre ++ us ++ post ∧ D us a := by
  induction as generalizing ts with
  | nil => cases ha
  | cons b as ih =>
    obtain ⟨gap, us, rest, rfl, hb, has⟩ := h
    rcases List.mem_cons.1 ha with rfl | ha
    · exact ⟨gap, us, rest, rfl, hb⟩
    · obtain ⟨pre, us', post, rfl, hd⟩ := ih has ha
      exact ⟨gap ++ us ++ pre, us', post, by simp, hd⟩

/-- What holds of every piece by its place among the tokens may be added. -/
theorem Strewn.imp {D' : List Token → α → Prop} (h : Strewn D ts as)
    (hD : ∀ pre us post a, ts = pre ++ us ++ post → D us a → D' us a) : Strewn D' ts as := by
  induction as generalizing ts with
  | nil => trivial
  | cons a as ih =>
    obtain ⟨gap, us, rest, rfl, ha, has⟩ := h
    refine ⟨gap, us, rest, rfl, hD gap us rest a rfl ha, ih has ?_⟩
    rintro pre us' post b rfl hb
    exact hD (gap ++ us ++ pre) us' post b (by simp) hb

end Strewn

-- ============================================================================
-- Pieces through rules
-- ============================================================================

/-- What the rule describes has pieces for all that `g` lists of its meaning. -/
def Rule.Spreads (r : Rule α) (D : List Token → β → Prop) (g : α → List β) : Prop :=
  ∀ ts a, r.Derives ts a → Strewn D ts (g a)

namespace Rule

variable {r : Rule α} {s : Rule β} {D : List Token → γ → Prop} {g : α → List γ} {h : β → List γ}

theorem spreads_nil (r : Rule α) (D : List Token → γ → Prop) : r.Spreads D fun _ => [] :=
  fun _ _ _ => trivial

theorem spreads_singleton {e : α → γ} (he : ∀ ts a, r.Derives ts a → D ts (e a)) :
    r.Spreads D fun a => [e a] :=
  fun ts a ha => ⟨[], ts, [], by simp, he ts a ha, trivial⟩

theorem Spreads.map {f : α → β} (hr : r.Spreads D fun a => h (f a)) : (r.map f).Spreads D h := by
  rintro ts b ⟨a, ha, rfl⟩
  exact hr ts a ha

/-- Of two rules in sequence, each spreads over its own stretch. -/
theorem Spreads.seq (hr : r.Spreads D g) (hs : s.Spreads D h) :
    (r.seq s).Spreads D fun p => g p.1 ++ h p.2 := by
  rintro ts p ⟨us, vs, rfl, ha, hb⟩
  exact (hr us p.1 ha).append (hs vs p.2 hb)

theorem Spreads.either {r' : Rule α} (hr : r.Spreads D g) (hr' : r'.Spreads D g) :
    (r.either r').Spreads D g := by
  rintro ts a (ha | ha)
  · exact hr ts a ha
  · exact hr' ts a ha

/-- A repeated rule spreads its parts in order. -/
theorem Spreads.many (hr : r.Spreads D g) : r.many.Spreads D fun as => as.flatMap g :=
  fun _ _ has => .flatMap has hr

theorem Spreads.after (hs : s.Spreads D h) (r : Rule α) : (r.after s).Spreads D h := by
  rintro ts b ⟨p, ⟨us, vs, rfl, -, hb⟩, rfl⟩
  exact (hs vs p.2 hb).after_gap us

theorem Spreads.before (hr : r.Spreads D g) (s : Rule β) : (r.before s).Spreads D g := by
  rintro ts a ⟨p, ⟨us, vs, rfl, ha, -⟩, rfl⟩
  exact (hr us p.1 ha).before_gap vs

theorem Spreads.between (hr : r.Spreads D g) (l q : Rule β) : (between l q r).Spreads D g :=
  (hr.after l).before q

end Rule

-- ============================================================================
-- Pieces of a text
-- ============================================================================

/-- A statement or the end of a block. -/
abbrev Node := Located Stmt ⊕ Located Exit

/-- The statements of a block and its end. -/
def BlockTree.nodes (b : BlockTree) : List Node := b.stmts.map .inl ++ [.inr b.exit]

def FuncTree.nodes (f : FuncTree) : List Node := f.blocks.flatMap BlockTree.nodes

/-- The functions among some declarations. -/
def functions (items : List Item) : List (Located FuncTree) :=
  items.flatMap fun
    | .type _ => []
    | .func f => [f]

/-- The tokens of a node. -/
inductive Node.Derives : List Token → Node → Prop
  | stmt {ts : List Token} {s : Located Stmt} :
    Grammar.stmt.located.Derives ts s → Derives ts (.inl s)
  | exit {ts : List Token} {e : Located Exit} :
    Grammar.exit.located.Derives ts e → Derives ts (.inr e)

theorem spreads_block : Grammar.block.Spreads Node.Derives BlockTree.nodes := by
  have hstmts : (Rule.many (.located Grammar.stmt)).Spreads Node.Derives
      fun ss => ss.flatMap fun s => [.inl s] :=
    (Rule.spreads_singleton fun _ _ => .stmt).many
  have hexit : (Rule.located Grammar.exit).Spreads Node.Derives fun e => [.inr e] :=
    Rule.spreads_singleton fun _ _ => .exit
  refine Rule.Spreads.map ?_
  have h := (Rule.spreads_nil (Rule.label.before (.mark .colon)) Node.Derives).seq
    (hstmts.seq hexit)
  simpa only [BlockTree.nodes, List.map_eq_flatMap, List.nil_append] using h

/-- The statements of a function are strewn over its tokens. -/
theorem spreads_func : Grammar.func.Spreads Node.Derives FuncTree.nodes := by
  have hblocks : (Grammar.block.seq (.many Grammar.block)).Spreads Node.Derives
      fun p => p.1.nodes ++ p.2.flatMap BlockTree.nodes :=
    spreads_block.seq spreads_block.many
  refine Rule.Spreads.map ?_
  have h := (((Rule.spreads_nil Rule.name Node.Derives).seq
    ((Rule.spreads_nil (Rule.between (.mark .lpar) (.mark .rpar) (.commaList? Grammar.param)) _).seq
      ((Rule.spreads_nil ((Rule.word .inDomain).after .name) _).seq
        (hblocks.between (.mark .lbrace) (.mark .rbrace)))))).after (.word .func)
  simpa only [FuncTree.nodes, FuncTree.blocks, List.flatMap_cons, List.nil_append] using h

theorem spreads_items : Grammar.items.Spreads Grammar.func.located.Derives functions :=
  (Rule.Spreads.either (Rule.spreads_nil _ _).map
    (Rule.spreads_singleton fun _ _ h => h).map).many

-- ============================================================================
-- Pieces of a program
-- ============================================================================

end Sendability.Source

namespace Sendability

/-- The operations of a block and its terminator, in the order of the text. -/
def Block.pieces (b : Block) : List (Op ⊕ Terminator) :=
  b.ops.map .inl ++ b.terminator.toList.map .inr

/-- The operations and terminators of a function, in the order of the text. -/
def Func.pieces (f : Func) : List (Op ⊕ Terminator) := f.blocks.values.flatMap Block.pieces

/-- The span of an operation or a terminator. -/
def pieceSpan : Op ⊕ Terminator → Span := Sum.elim Op.loc Terminator.loc

end Sendability

namespace Sendability.Source

variable {file : Option Text} {scope : Scope} {params : List Value}

/-- The operation or terminator that a node means. -/
inductive Node.Means (file : Option Text) (scope : Scope) : Node → Op ⊕ Terminator → Prop
  | op {s : Located Stmt} {op : Op} :
    s.node.Means scope (Fault.nodeSpan file s.start s.stop) op → Means file scope (.inl s) (.inl op)
  | terminator {e : Located Exit} {t : Terminator} :
    e.node.Means scope (Fault.nodeSpan file e.start e.stop) t → Means file scope (.inr e) (.inr t)

/-- Every statement of a block becomes one operation or the terminator, in order. -/
theorem BlockTree.Means.pieces {tree : BlockTree} {e : Name × Block}
    (h : tree.Means file scope e) : List.Forall₂ (Node.Means file scope) tree.nodes e.2.pieces := by
  obtain ⟨t, hterminator, ht⟩ := h.terminator
  rw [BlockTree.nodes, Block.pieces, hterminator]
  refine List.rel_append ?_ (.cons (.terminator ht) .nil)
  rw [List.forall₂_map_left_iff, List.forall₂_map_right_iff]
  exact h.ops.imp fun _ _ hop => .op hop

theorem FuncTree.Means.pieces {tree : Located FuncTree} {f : Func}
    (h : FuncTree.Means file params scope tree f) :
    List.Forall₂ (Node.Means file scope) tree.node.nodes f.pieces := by
  rw [FuncTree.nodes, Func.pieces, Table.values, List.flatMap_map]
  exact List.rel_flatMap h.blocks fun _ _ hb => hb.pieces

/-- The functions of a program are built from the trees in turn. -/
theorem forall₂_of_buildFuncs {types : Types} {seen : List Name} {items : List Item}
    {fs : List Func} (h : buildFuncs file types seen items = .ok fs) :
    List.Forall₂ (fun tree f => buildFunc file types tree = .ok f) (functions items) fs := by
  induction items generalizing seen fs with
  | nil =>
    cases h
    exact .nil
  | cons item items ih =>
    cases item with
    | type t => exact ih h
    | func tree =>
      obtain ⟨g, hg, h⟩ := ok_of_bind h
      split at h
      · cases h
      · obtain ⟨gs, hgs, h⟩ := ok_of_bind h
        cases h
        exact .cons hg (ih hgs)

/-- An operation is located where its statement is. -/
theorem Stmt.Means.loc {stmt : Stmt} {op : Op} {loc : Span} (h : stmt.Means scope loc op) :
    op.loc = loc := by
  cases h with
  | result hd hc => exact hc.loc
  | call hc => exact hc.loc
  | _ => rfl

theorem Exit.Means.loc {exit : Exit} {t : Terminator} {loc : Span} (h : exit.Means scope loc t) :
    t.loc = loc := by
  cases h with
  | _ => rfl

-- ============================================================================
-- Ordered tokens
-- ============================================================================

/-- Tokens that follow one another and are not empty. -/
structure Ordered (ts : List Token) : Prop where
  pairwise : ts.Pairwise fun s t => s.stop.place ≤ t.start.place
  proper : ∀ t ∈ ts, t.start.place < t.stop.place

/-- Tokens are scanned in the order of their places. -/
theorem ordered_scan (text : Text) : Ordered (scan text).tokens := by
  obtain ⟨hpairwise, hproper⟩ := (scans_scanFrom {} text.points).ordered
  exact ⟨hpairwise, fun t ht => (hproper t ht).2⟩

namespace Ordered

theorem piece (h : Ordered (pre ++ us ++ post)) : Ordered us where
  pairwise := (List.pairwise_append.1 (List.pairwise_append.1 h.pairwise).1).2.1
  proper t ht := h.proper t (by simp [ht])

/-- The first token starts before all others. -/
theorem start_le (h : Ordered ts) {a t : Token} (ha : ts.head? = some a) (ht : t ∈ ts) :
    a.start.place ≤ t.start.place := by
  obtain ⟨us, rfl⟩ := List.head?_eq_some_iff.1 ha
  rcases List.mem_cons.1 ht with rfl | ht
  · exact le_refl _
  · exact (h.proper a List.mem_cons_self).le.trans ((List.pairwise_cons.1 h.pairwise).1 t ht)

theorem stop_le (h : Ordered ts) {b t : Token} (hb : ts.getLast? = some b) (ht : t ∈ ts) :
    t.stop.place ≤ b.stop.place := by
  obtain ⟨us, rfl⟩ := List.getLast?_eq_some_iff.1 hb
  rcases List.mem_append.1 ht with hus | hlast
  · have hle := (List.pairwise_append.1 h.pairwise).2.2 t hus b List.mem_cons_self
    exact hle.trans (h.proper b (by simp)).le
  · rw [List.mem_singleton.1 hlast]

end Ordered

end Sendability.Source

namespace Sendability.Span

open Source

variable {s t : Span} {ts us vs pre post : List Token} {text : Text} {file : Option Text}

/-- The span goes from the first to the last of some tokens. -/
def Frames (s : Span) (ts : List Token) : Prop :=
  ∃ a b, ts.head? = some a ∧ ts.getLast? = some b ∧
    s.start? = some a.start.place ∧ s.stop? = some b.stop.place

/-- A node goes from its first to its last token. -/
theorem frames_node {α : Type} {r : Rule α} (hr : r.nullable = false) {l : Located α}
    (h : r.located.Derives ts l) : (Fault.nodeSpan file l.start l.stop).Frames ts := by
  obtain ⟨hderives, hplace⟩ := h
  have hne : ts ≠ [] := by
    rintro rfl
    exact Rule.ne_nil_of_mem hr (Rule.mem_language_of_derives r hderives) rfl
  have ha := List.head?_eq_some_head hne
  have hb := List.getLast?_eq_some_getLast hne
  simp only [place, List.length_nil, Nat.sub_zero, List.take_length, ha, hb] at hplace
  obtain ⟨hstart, hstop⟩ := Prod.mk.inj hplace
  exact ⟨_, _, ha, hb, by rw [hstart]; rfl, by rw [hstop]; rfl⟩

theorem Frames.proper (h : s.Frames ts) (hts : Ordered ts) : s.Proper := by
  obtain ⟨a, b, ha, hb, hstart, hstop⟩ := h
  have hmem : a ∈ ts := List.mem_of_mem_head? ha
  exact ⟨_, hstart, _, hstop, (hts.proper a hmem).trans_le (hts.stop_le hb hmem)⟩

/-- Spans of stretches that follow each other follow each other. -/
theorem Frames.precedes (h : s.Frames us) (h' : t.Frames vs)
    (hle : ∀ x ∈ us, ∀ y ∈ vs, x.stop.place ≤ y.start.place) : s.Precedes t := by
  obtain ⟨-, b, -, hb, -, hstop⟩ := h
  obtain ⟨a, -, ha, -, hstart, -⟩ := h'
  exact ⟨_, hstop, _, hstart, hle b (List.mem_of_getLast? hb) a (List.mem_of_mem_head? ha)⟩

/-- The span of a part lies inside the span of the whole. -/
theorem Frames.inside (h : s.Frames us) (h' : t.Frames ts) (hts : Ordered ts)
    (hsub : us ⊆ ts) : s.Inside t := by
  obtain ⟨a', b', ha', hb', hstart', hstop'⟩ := h
  obtain ⟨a, b, ha, hb, hstart, hstop⟩ := h'
  exact ⟨⟨_, hstart, _, hstart', hts.start_le ha (hsub (List.mem_of_mem_head? ha'))⟩,
    _, hstop', _, hstop, hts.stop_le hb (hsub (List.mem_of_getLast? hb'))⟩

/-- A span that frames tokens of a text marks them there. -/
theorem Frames.marks (h : s.Frames us) (htext : (scan text).tokens = pre ++ us ++ post) :
    s.Marks text us := by
  obtain ⟨a, b, ha, hb, hstart, hstop⟩ := h
  exact ⟨_, hstart, _, hstop, scan_excerpt htext ha hb⟩

end Sendability.Span

namespace Sendability.Source

/-- Pieces that spans go around are ordered by them. -/
theorem Strewn.pairwise {D : List Token → α → Prop} {as : List α} (h : Strewn D ts as)
    (hts : Ordered ts) {span : α → Span} (hD : ∀ us a, D us a → (span a).Frames us) :
    as.Pairwise fun a b => (span a).Precedes (span b) := by
  induction as generalizing ts with
  | nil => exact .nil
  | cons a as ih =>
    obtain ⟨gap, us, rest, rfl, ha, has⟩ := h
    have hrest : Ordered rest := by
      have h' : Ordered (gap ++ us ++ rest ++ []) := by rwa [List.append_nil]
      exact h'.piece
    refine List.pairwise_cons.2 ⟨?_, ih has hrest⟩
    intro b hb
    obtain ⟨pre, vs, post, rfl, hvs⟩ := has.exists_piece hb
    refine (hD us a ha).precedes (hD vs b hvs) ?_
    intro x hx y hy
    exact (List.pairwise_append.1 hts.pairwise).2.2 x (by simp [hx]) y (by simp [hy])

-- ============================================================================
-- Programs
-- ============================================================================

/-- The tokens are those of an operation or a terminator. -/
def PieceOf (file : Option Text) (scope : Scope) (ts : List Token) (p : Op ⊕ Terminator) : Prop :=
  ∃ node, Node.Derives ts node ∧ node.Means file scope p

theorem PieceOf.frames {p : Op ⊕ Terminator} (h : PieceOf file scope ts p) :
    (pieceSpan p).Frames ts := by
  obtain ⟨node, hderives, hmeans⟩ := h
  cases hmeans with
  | op hop =>
    cases hderives with
    | stmt hs =>
      rw [pieceSpan, Sum.elim_inl, hop.loc]
      exact Span.frames_node rfl hs
  | terminator ht =>
    cases hderives with
    | exit he =>
      rw [pieceSpan, Sum.elim_inr, ht.loc]
      exact Span.frames_node rfl he

/-- The tokens are those of a function whose values have the types of the scope. -/
def FuncOf (file : Option Text) (types : Types) (scope : Scope) (ts : List Token) (f : Func) :
    Prop :=
  ∃ tree params, Grammar.func.located.Derives ts tree ∧
    tree.node.scope types = .ok (params, scope) ∧ FuncTree.Means file params scope tree f

theorem FuncOf.frames {types : Types} {f : Func} (h : FuncOf file types scope ts f) :
    f.loc.Frames ts := by
  obtain ⟨tree, params, hderives, -, hmeans⟩ := h
  rw [hmeans.loc]
  exact Span.frames_node rfl hderives

/-- The tokens of a function have pieces for its operations and terminators. -/
theorem FuncOf.pieces {types : Types} {f : Func} (h : FuncOf file types scope ts f) :
    Strewn (PieceOf file scope) ts f.pieces := by
  obtain ⟨tree, params, hderives, -, hmeans⟩ := h
  exact (spreads_func ts tree.node hderives.1).of_forall₂ hmeans.pieces

theorem derives_of_readItems {text : Text} {items : List Item} (h : readItems text = .ok items) :
    Grammar.items.Derives (scan text).tokens items := by
  simp only [readItems] at h
  split at h
  · cases h
  · rename_i items' hread
    obtain ⟨used, hused, hderives, -⟩ := Rule.derives_of_read _ Grammar.predictive_items hread
    rw [List.append_nil] at hused
    split at h
    · cases h
    · cases h
      rwa [← hused]
  · cases h

/-- The tokens of a text have pieces for the functions of the program in it. -/
theorem strewn_of_parse {text : Text} {program : Program}
    (h : Program.parse text file = .ok program) :
    Strewn (fun ts f => ∃ scope, FuncOf file program.types scope ts f) (scan text).tokens
      program.functions := by
  obtain ⟨items, hitems, h⟩ := ok_of_bind h
  obtain ⟨types, -, h⟩ := ok_of_bind h
  obtain ⟨fs, hfs, h⟩ := ok_of_bind h
  cases h
  have hstrewn := (spreads_items _ _ (derives_of_readItems hitems)).of_forall₂
    (forall₂_of_buildFuncs hfs)
  refine hstrewn.imp ?_
  rintro - ts - f - ⟨tree, hderives, hbuild⟩
  obtain ⟨params, scope, hscope, hmeans⟩ := buildFunc_ok_iff.1 hbuild
  exact ⟨scope, tree, params, hderives, hscope, hmeans⟩

end Sendability.Source

namespace Sendability

open Source

/-- The spans of functions come one after the other, and so do those of the operations
    and terminators of a function, within its span. All have a start and a stop, the
    first before the second. The tokens of the text have those of the functions as
    pieces, and these have those of their operations and terminators; the characters
    between the ends of each span scan to exactly the words of its piece. -/
theorem Program.parse_locates {text : Text} {file : Option Text} {program : Program}
    (h : Program.parse text file = .ok program) :
    program.functions.Pairwise (fun f g => f.loc.Precedes g.loc) ∧
    (∀ f ∈ program.functions, f.loc.Proper ∧
      f.pieces.Pairwise (fun p q => (pieceSpan p).Precedes (pieceSpan q)) ∧
      ∀ p ∈ f.pieces, (pieceSpan p).Proper ∧ (pieceSpan p).Inside f.loc) ∧
    Strewn (fun ts f => ∃ scope, FuncOf file program.types scope ts f ∧ f.loc.Marks text ts ∧
      Strewn (fun us p => PieceOf file scope us p ∧ (pieceSpan p).Marks text us) ts f.pieces)
      (scan text).tokens program.functions := by
  have hstrewn := strewn_of_parse h
  have hordered := ordered_scan text
  refine ⟨hstrewn.pairwise hordered ?_, ?_, hstrewn.imp ?_⟩
  · rintro ts f ⟨scope, hfunc⟩
    exact hfunc.frames
  · intro f hf
    obtain ⟨pre, ts, post, htokens, scope, hfunc⟩ := hstrewn.exists_piece hf
    rw [htokens] at hordered
    have hts := hordered.piece
    have hpieces := hfunc.pieces
    refine ⟨hfunc.frames.proper hts, hpieces.pairwise hts fun _ _ => PieceOf.frames, ?_⟩
    intro p hp
    obtain ⟨pre', us, post', rfl, hpiece⟩ := hpieces.exists_piece hp
    exact ⟨hpiece.frames.proper hts.piece,
      hpiece.frames.inside hfunc.frames hts fun t ht => by simp [ht]⟩
  · rintro pre ts post f htokens ⟨scope, hfunc⟩
    refine ⟨scope, hfunc, hfunc.frames.marks htokens, hfunc.pieces.imp ?_⟩
    rintro pre' us post' p rfl hpiece
    have htext : (scan text).tokens = pre ++ pre' ++ us ++ (post' ++ post) := by
      simpa using htokens
    exact ⟨hpiece, hpiece.frames.marks htext⟩

/-- Statements over several lines, with tabs, carriage returns and comments inside. -/
def scattered : Text :=
  "type Box // boxes\r\nfunc f(x : Box) in main \x7b\n@a:\tuse\n\t# read\n x " ++
    "y\r= copy // same\n\tx return \x7dfunc g() in main\x7b@b:unreachable\x7d"

/-- The third span is that of the copy: it begins after the use on the same line and
    ends with the source on the next. -/
theorem scattered_located : ∃ program, Program.parse scattered none = .ok program ∧
    (program.functions.map fun f => f.loc :: f.pieces.map pieceSpan) =
      [[⟨none, some 2, some 1, some 6, some 12⟩, ⟨none, some 3, some 5, some 5, some 3⟩,
        ⟨none, some 5, some 4, some 6, some 3⟩, ⟨none, some 6, some 4, some 6, some 10⟩],
       [⟨none, some 6, some 12, some 6, some 44⟩, ⟨none, some 6, some 32, some 6, some 43⟩]] ∧
    excerpt scattered.points (toLex (5, 4)) (toLex (6, 3)) =
      ("y\r= copy // same\n\tx" : Text).points ∧
    program.functions.Pairwise (fun f g => f.loc.Precedes g.loc) ∧
    ∀ f ∈ program.functions, f.loc.Proper ∧
      f.pieces.Pairwise (fun p q => (pieceSpan p).Precedes (pieceSpan q)) ∧
      ∀ p ∈ f.pieces, (pieceSpan p).Proper ∧ (pieceSpan p).Inside f.loc := by
  have hspans : ((Program.parse scattered none).toOption.map fun program =>
      program.functions.map fun f => f.loc :: f.pieces.map pieceSpan) =
      some [[⟨none, some 2, some 1, some 6, some 12⟩, ⟨none, some 3, some 5, some 5, some 3⟩,
        ⟨none, some 5, some 4, some 6, some 3⟩, ⟨none, some 6, some 4, some 6, some 10⟩],
       [⟨none, some 6, some 12, some 6, some 44⟩, ⟨none, some 6, some 32, some 6, some 43⟩]] := by
    decide +kernel
  cases hparse : Program.parse scattered none with
  | error e =>
    rw [hparse] at hspans
    cases hspans
  | ok program =>
    rw [hparse] at hspans
    obtain ⟨hfunctions, hpieces, -⟩ := Program.parse_locates hparse
    exact ⟨program, rfl, Option.some.inj hspans, by decide +kernel, hfunctions, hpieces⟩

end Sendability
