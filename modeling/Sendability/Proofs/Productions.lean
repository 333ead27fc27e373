/-
  The grammar of the textual program form as productions, and what reading a text
  by it comes to.

  `production` is the grammar in the usual form: a right-hand side for every
  nonterminal. `Phrase.Yields` says which sequences of kinds a right-hand side
  stands for, and the sentences are what `start` yields. The rule that the reader
  follows describes the same sequences (`language_items`) and is predictive, so
  the outcome of reading a text is determined by the sentences alone
  (`readItems_exact`): which texts are read, and which token or character is
  blamed in the others.
-/

import Sendability.Proofs.Prediction
import Sendability.Source.Program

namespace Sendability.Source

open scoped Computability

-- ============================================================================
-- Productions
-- ============================================================================

/-- The nonterminals of the grammar. -/
inductive Nonterminal where
  | start | item | typeDecl | funcDef | params | param | block | op | assign | rhs | initRhs | loadRhs
  | copyRhs | closureRhs | callExpr | callAttr | store | callStmt | use | write | names | dotted
  | terminator
  deriving DecidableEq

/-- A right-hand side of a production. -/
inductive Phrase where
  | token (k : Kind)
  | rule (n : Nonterminal)
  | both (a b : Phrase)
  | either (a b : Phrase)
  | optional (a : Phrase)
  | many (a : Phrase)
  | some (a : Phrase)
  deriving DecidableEq

namespace Phrase

/-- One phrase after the other. -/
instance : Mul Phrase := ⟨both⟩

/-- One phrase or the other. -/
instance : Add Phrase := ⟨either⟩

/-- A keyword. -/
def word (k : Keyword) : Phrase := token (.keyword k)

/-- A punctuation mark. -/
def mark (m : Mark) : Phrase := token (.mark m)

/-- Any name. -/
def name : Phrase := token .name

/-- Any label. -/
def label : Phrase := token .label

end Phrase

open Phrase in
/-- The productions. -/
@[simp] def production : Nonterminal → Phrase
  | .start => many (rule .item)
  | .item => rule .typeDecl + rule .funcDef
  | .typeDecl => word .type * name * optional (word .sendable)
  | .funcDef =>
    word .func * name * mark .lpar * optional (rule .params) * mark .rpar * word .inDomain * name *
      mark .lbrace * Phrase.some (rule .block) * mark .rbrace
  | .params => rule .param * many (mark .comma * rule .param)
  | .param => name * mark .colon * name
  | .block => label * mark .colon * many (rule .op) * rule .terminator
  | .op => rule .assign + rule .store + rule .callStmt + rule .use + rule .write
  | .assign => name * optional (mark .colon * name) * mark .equal * rule .rhs
  | .rhs => rule .initRhs + rule .loadRhs + rule .copyRhs + rule .closureRhs + rule .callExpr
  | .initRhs => word .init * name * mark .lpar * optional (rule .names) * mark .rpar
  | .loadRhs => word .load * name * mark .dot * name
  | .copyRhs => word .copy * name
  | .closureRhs => word .closure * mark .lsqb * optional (rule .names) * mark .rsqb
  | .callExpr =>
    word .call * rule .dotted * mark .lpar * optional (rule .names) * mark .rpar *
      many (rule .callAttr)
  | .callAttr => word .onDomain * name + word .spawn
  | .store => word .store * name * mark .dot * name * mark .equal * name
  | .callStmt => rule .callExpr
  | .use => word .use * name
  | .write => word .write * name
  | .names => name * many (mark .comma * name)
  | .dotted => name * many (mark .dot * name)
  | .terminator =>
    word .goto * label +
    word .br * optional (name * mark .qmark) * label * Phrase.some (mark .comma * label) +
    word .ret * optional name +
    word .throw * optional name * optional (word .toHandler * label) +
    word .unreachable

namespace Phrase

/-- The sequences of kinds that a phrase stands for. -/
inductive Yields : Phrase → List Kind → Prop
  | token (k : Kind) : Yields (token k) [k]
  | rule {n : Nonterminal} {w : List Kind} : Yields (production n) w → Yields (rule n) w
  | both {a b : Phrase} {v w : List Kind} : Yields a v → Yields b w → Yields (a * b) (v ++ w)
  | left {a b : Phrase} {w : List Kind} : Yields a w → Yields (a + b) w
  | right {a b : Phrase} {w : List Kind} : Yields b w → Yields (a + b) w
  | absent (a : Phrase) : Yields (optional a) []
  | present {a : Phrase} {w : List Kind} : Yields a w → Yields (optional a) w
  | none (a : Phrase) : Yields (many a) []
  | more {a : Phrase} {v w : List Kind} :
      Yields a v → Yields (many a) w → Yields (many a) (v ++ w)
  | some {a : Phrase} {v w : List Kind} :
      Yields a v → Yields (many a) w → Yields (some a) (v ++ w)

/-- The language of a phrase. -/
def language (a : Phrase) : Language Kind := {w | a.Yields w}

@[simp] theorem language_token (k : Kind) : (token k).language = {[k]} := by
  ext w
  refine ⟨?_, ?_⟩
  · intro h
    cases h
    rfl
  · intro h
    obtain rfl : w = [k] := h
    exact .token k

/-- A nonterminal has the language of its production. -/
theorem language_rule (n : Nonterminal) : (rule n).language = (production n).language := by
  ext w
  refine ⟨?_, .rule⟩
  intro h
  cases h with
  | rule h => exact h

@[simp] theorem language_mul (a b : Phrase) : (a * b).language = a.language * b.language := by
  ext w
  rw [Language.mem_mul]
  refine ⟨?_, ?_⟩
  · intro h
    cases h with
    | both ha hb => exact ⟨_, ha, _, hb, rfl⟩
  · rintro ⟨v, hv, w, hw, rfl⟩
    exact .both hv hw

@[simp] theorem language_add (a b : Phrase) : (a + b).language = a.language + b.language := by
  ext w
  refine ⟨?_, ?_⟩
  · intro h
    cases h with
    | left h => exact .inl h
    | right h => exact .inr h
  · rintro (h | h)
    · exact .left h
    · exact .right h

@[simp] theorem language_optional (a : Phrase) : (optional a).language = 1 + a.language := by
  ext w
  refine ⟨?_, ?_⟩
  · intro h
    cases h with
    | absent => exact .inl rfl
    | present h => exact .inr h
  · rintro (h | h)
    · obtain rfl : w = [] := h
      exact .absent a
    · exact .present h

@[simp] theorem language_many (a : Phrase) : (many a).language = a.language∗ := by
  ext w
  refine ⟨?_, ?_⟩
  · intro h
    generalize hp : many a = p at h
    induction h with
    | none b => exact Language.nil_mem_kstar _
    | more hv _ _ ih =>
      cases hp
      rw [← Language.one_add_self_mul_kstar_eq_kstar]
      exact .inr (Language.append_mem_mul hv (ih rfl))
    | _ => cases hp
  · intro h
    obtain ⟨parts, rfl, hparts⟩ := Language.mem_kstar.1 h
    clear h
    induction parts with
    | nil => exact .none a
    | cons v parts ih =>
      exact .more (hparts v (by simp)) (ih fun y hy => hparts y (List.mem_cons_of_mem _ hy))

@[simp] theorem language_some (a : Phrase) : (some a).language = a.language * a.language∗ := by
  rw [← language_many, ← language_mul]
  ext w
  refine ⟨?_, ?_⟩
  · intro h
    cases h with
    | some hv hw => exact .both hv hw
  · intro h
    cases h with
    | both hv hw => exact .some hv hw

@[simp] theorem language_word (k : Keyword) : (word k).language = {[.keyword k]} := language_token _

@[simp] theorem language_mark (m : Mark) : (mark m).language = {[.mark m]} := language_token _

@[simp] theorem language_name : name.language = {[.name]} := language_token _

@[simp] theorem language_label : label.language = {[.label]} := language_token _

end Phrase

-- ============================================================================
-- The rules of the reader
-- ============================================================================

namespace Rule

variable {α β γ : Type}

@[simp] theorem language_map (f : α → β) (r : Rule α) : (r.map f).language = r.language := rfl

@[simp] theorem language_seq (r : Rule α) (s : Rule β) :
    (r.seq s).language = r.language * s.language := rfl

@[simp] theorem language_either (r s : Rule α) : (r.either s).language = r.language + s.language := rfl

@[simp] theorem language_optional (r : Rule α) : r.optional.language = 1 + r.language := rfl

@[simp] theorem language_many (r : Rule α) : r.many.language = r.language∗ := rfl

@[simp] theorem language_located (r : Rule α) : r.located.language = r.language := rfl

@[simp] theorem language_word (k : Keyword) : (word k).language = {[.keyword k]} := rfl

@[simp] theorem language_mark (m : Mark) : (mark m).language = {[.mark m]} := rfl

@[simp] theorem language_name : name.language = {[.name]} := rfl

@[simp] theorem language_label : label.language = {[.label]} := rfl

@[simp] theorem language_after (r : Rule α) (s : Rule β) :
    (after r s).language = r.language * s.language := rfl

@[simp] theorem language_before (r : Rule α) (s : Rule β) :
    (before r s).language = r.language * s.language := rfl

@[simp] theorem language_between (l : Rule α) (r : Rule β) (m : Rule γ) :
    (between l r m).language = l.language * m.language * r.language := rfl

@[simp] theorem language_commaList (r : Rule α) :
    (commaList r).language = r.language * ({[.mark .comma]} * r.language)∗ := rfl

@[simp] theorem language_commaList? (r : Rule α) :
    (commaList? r).language = 1 + (commaList r).language := rfl

end Rule

namespace Grammar

open Phrase (language_rule)

/-- Names in brackets are an optional list between marks. -/
theorem language_names (l r : Mark) :
    (names l r).language =
      (Phrase.mark l * Phrase.optional (.rule .names) * Phrase.mark r).language := by
  simp [names, language_rule]

/-- The rule for calls has the language of its production. -/
theorem language_callExpr : callExpr.language = (Phrase.rule .callExpr).language := by
  simp [callExpr, callAttr, language_rule, language_names, mul_assoc]

/-- The rule for right-hand sides has the language of its production. -/
theorem language_rhs : rhs.language = (Phrase.rule .rhs).language := by
  simp [rhs, language_rule, language_names, language_callExpr, mul_assoc, sup_assoc]

/-- The rule for statements has the language of its production. -/
theorem language_stmt : stmt.language = (Phrase.rule .op).language := by
  simp [stmt, assign, store, language_rule, language_rhs, language_callExpr, mul_assoc,
    sup_assoc]

/-- The rule for terminators has the language of its production. -/
theorem language_exit : exit.language = (Phrase.rule .terminator).language := by
  simp [exit, language_rule, mul_assoc, sup_assoc]

/-- The rule for blocks has the language of its production. -/
theorem language_block : block.language = (Phrase.rule .block).language := by
  simp [block, language_rule, language_stmt, language_exit, mul_assoc]

/-- The rule for functions has the language of its production. -/
theorem language_func : func.language = (Phrase.rule .funcDef).language := by
  simp [func, param, language_rule, language_block, mul_assoc]

/-- The reader's rule for a whole text describes the sentences of the grammar. -/
theorem language_items : items.language = (Phrase.rule .start).language := by
  simp [items, typeDecl, language_rule, language_func, mul_assoc]

/-- The next token always decides how to go on. -/
theorem predictive_items : items.predictive = true := by decide +kernel

end Grammar

-- ============================================================================
-- Reading a text
-- ============================================================================

/-- The sentences of the grammar. -/
def sentences : Language Kind := (Phrase.rule .start).language

/-- The tokens begin a sentence. -/
def Begins (ts : List Token) : Prop := Viable sentences (kindsOf ts)

/-- What begins a sentence does so piece by piece. -/
theorem Begins.of_append {ts us : List Token} (h : Begins (ts ++ us)) : Begins ts := by
  rw [Begins, kindsOf_append] at h
  exact h.of_append

/-- The tokens begin a sentence, and with the next one they do not. -/
structure Cut (used left : List Token) : Prop where
  begins : Begins used
  stops : ∀ t ∈ left.head?, ¬ Begins (used ++ [t])

/-- If all tokens begin a sentence, none is left. -/
theorem Cut.left_eq_nil {used left : List Token} (h : Cut used left) (hall : Begins (used ++ left)) :
    left = [] := by
  cases left with
  | nil => rfl
  | cons t left =>
    rw [List.append_cons] at hall
    exact absurd hall.of_append (h.stops t rfl)

/-- Tokens are cut at one place. -/
theorem Cut.unique {used left before after : List Token} (h : Cut used left) (h' : Cut before after)
    (heq : used ++ left = before ++ after) : left = after := by
  rcases List.append_eq_append_iff.1 heq with ⟨more, rfl, rfl⟩ | ⟨more, rfl, rfl⟩
  · cases more with
    | nil => rfl
    | cons t more =>
      have hbegins := h'.begins
      rw [List.append_cons] at hbegins
      exact absurd hbegins.of_append (h.stops t rfl)
  · cases more with
    | nil => rfl
    | cons t more =>
      have hbegins := h.begins
      rw [List.append_cons] at hbegins
      exact absurd hbegins.of_append (h'.stops t rfl)

/-- The reader stops where the tokens are cut, and it fails unless what it used up
    is a sentence. -/
theorem read_items (ts : List Token) :
    ∃ used left, used ++ left = ts ∧ Cut used left ∧
      ((∃ items, Grammar.items.read ts = .ok (items, left) ∧ kindsOf used ∈ sentences) ∨
        (Grammar.items.read ts = .error left ∧ kindsOf ts ∉ sentences)) := by
  have hlang : Grammar.items.language = sentences := Grammar.language_items
  cases hread : Grammar.items.read ts with
  | ok x =>
    obtain ⟨items, left⟩ := x
    obtain ⟨used, rfl, hderives, hstop⟩ :=
      Rule.derives_of_read _ Grammar.predictive_items hread
    have hmem := Rule.mem_language_of_derives _ hderives
    rw [hlang] at hmem hstop
    refine ⟨used, left, rfl, ⟨⟨[], by rwa [List.append_nil]⟩, ?_⟩, .inl ⟨items, rfl, hmem⟩⟩
    intro t ht hbegins
    rw [Begins, kindsOf_append] at hbegins
    exact hstop t ht hbegins
  | error left =>
    obtain ⟨used, rfl, hviable, hstop⟩ := Rule.viable_of_read _ Grammar.predictive_items hread
    rw [hlang] at hviable hstop
    refine ⟨used, left, rfl, ⟨hviable, ?_⟩, .inr ⟨rfl, ?_⟩⟩
    · intro t ht hbegins
      rw [Begins, kindsOf_append] at hbegins
      exact hstop t ht hbegins
    · intro hmem
      rw [← hlang] at hmem
      have hnext : ∀ t ∈ ([] : List Token).head?, Grammar.items.follows t.kind = false := by simp
      obtain ⟨items, hok⟩ := Rule.read_of_mem_language Grammar.predictive_items hmem hnext
      rw [List.append_nil, hread] at hok
      cases hok

theorem begins_of_mem {ts : List Token} (h : kindsOf ts ∈ sentences) : Begins ts :=
  ⟨[], by rwa [List.append_nil]⟩

/-- The four outcomes of reading a text. -/
theorem readItems_cases (text : Text) :
    ((scan text).stuck = none ∧ kindsOf (scan text).tokens ∈ sentences ∧
      ∃ items, readItems text = .ok items) ∨
    (∃ before t after, (scan text).tokens = before ++ t :: after ∧ Cut before (t :: after) ∧
      readItems text = .error (.unexpected t)) ∨
    ((scan text).stuck = none ∧ kindsOf (scan text).tokens ∉ sentences ∧ Begins (scan text).tokens ∧
      readItems text = .error (.unexpectedEnd (scan text).tokens.getLast?)) ∨
    ∃ p, (scan text).stuck = some p ∧ Begins (scan text).tokens ∧
      readItems text = .error (.stray (.of text p (scan text).tokens.getLast?)) := by
  obtain ⟨used, left, hused, hcut, hread⟩ := read_items (scan text).tokens
  cases left with
  | cons t left =>
    -- a token is left, whether the reader failed at it or was done before it
    refine .inr (.inl ⟨used, t, left, hused.symm, hcut, ?_⟩)
    rcases hread with ⟨items, hread, -⟩ | ⟨hread, -⟩
    · simp only [readItems, hread, blame]
    · simp only [readItems, hread, blame]
  | nil =>
    rw [List.append_nil] at hused
    subst hused
    cases hstuck : (scan text).stuck with
    | none =>
      rcases hread with ⟨items, hread, hmem⟩ | ⟨hread, hmem⟩
      · exact .inl ⟨rfl, hmem, items, by simp [readItems, hread, hstuck]⟩
      · exact .inr (.inr (.inl ⟨rfl, hmem, hcut.begins, by simp [readItems, hread, blame, hstuck]⟩))
    | some p =>
      refine .inr (.inr (.inr ⟨p, rfl, hcut.begins, ?_⟩))
      rcases hread with ⟨items, hread, -⟩ | ⟨hread, -⟩
      · simp [readItems, hread, blame, hstuck]
      · simp [readItems, hread, blame, hstuck]

section Outcomes

variable {text : Text}

/-- A token after which the tokens are cut excludes that all of them begin a
    sentence. -/
theorem Cut.not_begins {before after ts : List Token} {t : Token} (h : Cut before (t :: after))
    (hts : ts = before ++ t :: after) : ¬ Begins ts := by
  intro hbegins
  rw [hts] at hbegins
  cases h.left_eq_nil hbegins

/-- The cut is before the first token that no sentence can go on with. -/
theorem cut_iff {before after : List Token} {t : Token} :
    Cut before (t :: after) ↔ Begins before ∧ ¬ Begins (before ++ [t]) := by
  refine ⟨fun h => ⟨h.begins, h.stops t rfl⟩, ?_⟩
  rintro ⟨hbegins, hstops⟩
  refine ⟨hbegins, ?_⟩
  intro n hn
  cases hn
  exact hstops

/-- Items are read exactly from sentences. -/
theorem readItems_ok_iff : (∃ items, readItems text = .ok items) ↔
    (scan text).stuck = none ∧ kindsOf (scan text).tokens ∈ sentences := by
  rcases readItems_cases text with ⟨hstuck, hmem, hread⟩ | ⟨before, t, after, htokens, hcut, hread⟩ |
    ⟨-, hmem, -, hread⟩ | ⟨p, hstuck, -, hread⟩
  · exact iff_of_true hread ⟨hstuck, hmem⟩
  · refine iff_of_false (by simp [hread]) ?_
    rintro ⟨-, hmem⟩
    exact hcut.not_begins htokens (begins_of_mem hmem)
  · exact iff_of_false (by simp [hread]) fun h => hmem h.2
  · exact iff_of_false (by simp [hread]) fun h => by simp [hstuck] at h

/-- A token is unexpected exactly when it is the first that no sentence can go on
    with. -/
theorem readItems_unexpected_iff (t : Token) : readItems text = .error (.unexpected t) ↔
    ∃ before after, (scan text).tokens = before ++ t :: after ∧ Begins before ∧
      ¬ Begins (before ++ [t]) := by
  -- no token is to blame when all of them begin a sentence
  have hnone : Begins (scan text).tokens → ¬ ∃ before after,
      (scan text).tokens = before ++ t :: after ∧ Begins before ∧ ¬ Begins (before ++ [t]) := by
    rintro hbegins ⟨before, after, htokens, hbefore, hstops⟩
    exact (cut_iff.2 ⟨hbefore, hstops⟩).not_begins htokens hbegins
  rcases readItems_cases text with ⟨-, hmem, items, hread⟩ | ⟨before, n, after, htokens, hcut, hread⟩ |
    ⟨-, -, hbegins, hread⟩ | ⟨p, -, hbegins, hread⟩
  · exact iff_of_false (by simp [hread]) (hnone (begins_of_mem hmem))
  · rw [hread]
    refine ⟨?_, ?_⟩
    · intro h
      cases h
      exact ⟨before, after, htokens, cut_iff.1 hcut⟩
    · rintro ⟨before', after', htokens', hbefore, hstops⟩
      have hleft := hcut.unique (cut_iff.2 ⟨hbefore, hstops⟩) (htokens.symm.trans htokens')
      rw [(List.cons.inj hleft).1]
  · exact iff_of_false (by simp [hread]) (hnone hbegins)
  · exact iff_of_false (by simp [hread]) (hnone hbegins)

/-- The end comes too early exactly when the tokens begin a sentence but are none. -/
theorem readItems_end_iff :
    readItems text = .error (.unexpectedEnd (scan text).tokens.getLast?) ↔
      (scan text).stuck = none ∧ Begins (scan text).tokens ∧
        kindsOf (scan text).tokens ∉ sentences := by
  rcases readItems_cases text with ⟨-, hmem, items, hread⟩ | ⟨before, n, after, htokens, hcut, hread⟩ |
    ⟨hstuck, hmem, hbegins, hread⟩ | ⟨p, hstuck, -, hread⟩
  · exact iff_of_false (by simp [hread]) fun h => h.2.2 hmem
  · exact iff_of_false (by simp [hread]) fun h => hcut.not_begins htokens h.2.1
  · exact iff_of_true hread ⟨hstuck, hbegins, hmem⟩
  · exact iff_of_false (by simp [hread]) fun h => by simp [hstuck] at h

/-- A stray character is reported exactly when the tokens before it begin a sentence. -/
theorem readItems_stray_iff (p : Position) :
    readItems text = .error (.stray (.of text p (scan text).tokens.getLast?)) ↔
      (scan text).stuck = some p ∧ Begins (scan text).tokens := by
  rcases readItems_cases text with ⟨hstuck, -, items, hread⟩ |
    ⟨before, n, after, htokens, hcut, hread⟩ | ⟨hstuck, -, -, hread⟩ | ⟨p', hstuck, hbegins, hread⟩
  · exact iff_of_false (by simp [hread]) fun h => by simp [hstuck] at h
  · exact iff_of_false (by simp [hread]) fun h => hcut.not_begins htokens h.2
  · exact iff_of_false (by simp [hread]) fun h => by simp [hstuck] at h
  · rw [hread, hstuck]
    refine ⟨?_, ?_⟩
    · intro h
      -- a stray character remembers its place
      have hpos : p' = p := congrArg Stray.pos (Fault.stray.inj (Except.error.inj h))
      exact ⟨congrArg some hpos, hbegins⟩
    · rintro ⟨h, -⟩
      rw [Option.some.inj h]

/-- There are three reasons why a text has no items. -/
theorem readItems_error {fault : Fault} (h : readItems text = .error fault) :
    (∃ t, fault = .unexpected t) ∨
      (fault = .unexpectedEnd (scan text).tokens.getLast? ∧ (scan text).stuck = none) ∨
      ∃ p, (scan text).stuck = some p ∧ fault = .stray (.of text p (scan text).tokens.getLast?) := by
  rcases readItems_cases text with ⟨-, -, items, hread⟩ | ⟨before, t, after, -, -, hread⟩ |
    ⟨hstuck, -, -, hread⟩ | ⟨p, hstuck, -, hread⟩
  · cases h.symm.trans hread
  · cases h.symm.trans hread
    exact .inl ⟨t, rfl⟩
  · cases h.symm.trans hread
    exact .inr (.inl ⟨rfl, hstuck⟩)
  · cases h.symm.trans hread
    exact .inr (.inr ⟨p, hstuck, rfl⟩)

end Outcomes

/-- What reading a text comes to. It succeeds exactly if the text is cut into
    tokens to its end and the tokens are a sentence of the grammar. A token is
    blamed exactly if those before it begin a sentence and together with it they
    do not; the end of the text, if all tokens begin a sentence and are none; and
    a stray character, if all tokens before it begin a sentence. Nothing else can
    happen, and the fault is that of the program as a whole. -/
theorem readItems_exact (text : Text) :
    ((∃ items, readItems text = .ok items) ↔
      (scan text).stuck = none ∧ kindsOf (scan text).tokens ∈ sentences) ∧
    (∀ t, readItems text = .error (.unexpected t) ↔
      ∃ before after, (scan text).tokens = before ++ t :: after ∧ Begins before ∧
        ¬ Begins (before ++ [t])) ∧
    (readItems text = .error (.unexpectedEnd (scan text).tokens.getLast?) ↔
      (scan text).stuck = none ∧ Begins (scan text).tokens ∧
        kindsOf (scan text).tokens ∉ sentences) ∧
    (∀ p, readItems text = .error (.stray (.of text p (scan text).tokens.getLast?)) ↔
      (scan text).stuck = some p ∧ Begins (scan text).tokens) ∧
    ∀ fault, readItems text = .error fault →
      ((∃ t, fault = .unexpected t) ∨
        (fault = .unexpectedEnd (scan text).tokens.getLast? ∧ (scan text).stuck = none) ∨
        ∃ p, (scan text).stuck = some p ∧
          fault = .stray (.of text p (scan text).tokens.getLast?)) ∧
      ∀ file, Program.parse text file = .error fault := by
  refine ⟨readItems_ok_iff, readItems_unexpected_iff, readItems_end_iff, readItems_stray_iff, ?_⟩
  intro fault hfault
  refine ⟨readItems_error hfault, ?_⟩
  intro file
  rw [Program.parse, hfault]
  rfl

/-- A function whose parameters are not closed; a character that starts no token
    comes later. -/
def openParams : Text := "type Box\nfunc f(x : Box in main %"

/-- The keyword after the parameters is blamed, and not the character: the tokens
    before it begin a sentence, and none together with it. -/
theorem openParams_blamed : ∃ before after,
    (scan openParams).tokens =
      before ++ ⟨.keyword .inDomain, "in", ⟨24, 2, 16⟩, ⟨26, 2, 18⟩⟩ :: after ∧
    Begins before ∧
    ¬ Begins (before ++ [⟨.keyword .inDomain, "in", ⟨24, 2, 16⟩, ⟨26, 2, 18⟩⟩]) := by
  have hread : readItems openParams =
      .error (.unexpected ⟨.keyword .inDomain, "in", ⟨24, 2, 16⟩, ⟨26, 2, 18⟩⟩) := by
    decide +kernel
  exact ((readItems_exact openParams).2.1 _).1 hread

end Sendability.Source
