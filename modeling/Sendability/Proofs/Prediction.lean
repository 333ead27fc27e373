/-
  Reading by one token of lookahead.

  A rule describes a language of token kinds (`Rule.language`), and a relation
  between tokens and meanings (`Rule.Derives`), neither of which mentions the
  reader. `Rule.predictive` is a check on a rule: where the reader has a choice,
  the next token decides it. For rules that pass it the reader is exact:

  * `read_of_derives`: what the rule derives is read, with its meaning, whatever
    comes after it, as long as the next token cannot continue the rule;
  * `derives_of_read`: what is read is derived, and the next token continues no
    sequence of the rule;
  * `viable_of_read`: when reading fails, the tokens used up begin a sequence of
    the rule, and with the next token they begin none.

  The last two go by induction over the rule. Parts in sequence and repeated
  parts share one argument (`stops_seq`): a sequence that is cut at another
  place than the reader cut it would have to go on, at that place, with a token
  that can only continue the first part.
-/

import Mathlib.Computability.Language
import Sendability.Source.Rule

namespace Sendability.Source

open scoped Computability

-- ============================================================================
-- Kinds
-- ============================================================================

/-- Every kind of token. -/
def Kind.all : List Kind :=
  .name :: .label :: (Keyword.all.map Kind.keyword ++ Mark.all.map Kind.mark)

theorem Keyword.mem_all (k : Keyword) : k ∈ Keyword.all := by cases k <;> decide

theorem Mark.mem_all (m : Mark) : m ∈ Mark.all := by cases m <;> decide

theorem Kind.mem_all (k : Kind) : k ∈ Kind.all := by
  cases k with
  | name => simp [all]
  | label => simp [all]
  | keyword k => simp [all, Keyword.mem_all]
  | mark m => simp [all, Mark.mem_all]

/-- No kind satisfies both of two tests. -/
def apart (p q : Kind → Bool) : Bool := Kind.all.all fun k => !(p k && q k)

theorem apart_spec {p q : Kind → Bool} (h : apart p q = true) {k : Kind} (hq : q k = true) :
    p k = false := by
  have hk := List.all_eq_true.1 h k (Kind.mem_all k)
  cases hp : p k with
  | false => rfl
  | true =>
    rw [hp, hq] at hk
    cases hk

/-- The kinds of some tokens. -/
def kindsOf (ts : List Token) : List Kind := ts.map Token.kind

@[simp] theorem kindsOf_nil : kindsOf [] = [] := rfl

@[simp] theorem kindsOf_cons (t : Token) (ts : List Token) :
    kindsOf (t :: ts) = t.kind :: kindsOf ts := rfl

@[simp] theorem kindsOf_append (ts us : List Token) : kindsOf (ts ++ us) = kindsOf ts ++ kindsOf us :=
  List.map_append

-- ============================================================================
-- What a rule describes
-- ============================================================================

/-- Tokens that fall into parts one after the other, with a meaning for each. -/
def Parts {α : Type} (D : List Token → α → Prop) : List Token → List α → Prop
  | ts, [] => ts = []
  | ts, a :: as => ∃ us vs, us ++ vs = ts ∧ D us a ∧ Parts D vs as

namespace Rule

/-- The sequences of kinds that a rule describes. -/
def language : {α : Type} → Rule α → Language Kind
  | _, .token k => {[k]}
  | _, .map _ r => r.language
  | _, .seq r s => r.language * s.language
  | _, .either r s => r.language + s.language
  | _, .optional r => 1 + r.language
  | _, .many r => r.language∗
  | _, .located r => r.language

/-- The rule describes the tokens and gives them the meaning `a`. -/
def Derives : {α : Type} → Rule α → List Token → α → Prop
  | _, .token k, ts, t => ts = [t] ∧ t.kind = k
  | _, .map f r, ts, b => ∃ a, r.Derives ts a ∧ f a = b
  | _, .seq r s, ts, p => ∃ us vs, us ++ vs = ts ∧ r.Derives us p.1 ∧ s.Derives vs p.2
  | _, .either r s, ts, a => r.Derives ts a ∨ s.Derives ts a
  | _, .optional r, ts, o => o.elim (ts = []) (r.Derives ts)
  | _, .many r, ts, as => Parts r.Derives ts as
  | _, .located r, ts, l => r.Derives ts l.node ∧ place ts [] = (l.start, l.stop)

/-- Whether a token of kind `k` can continue a sequence that is complete. -/
def follows : {α : Type} → Rule α → Kind → Bool
  | _, .token _, _ => false
  | _, .map _ r, k => r.follows k
  | _, .seq r s, k => s.follows k || (s.nullable && r.follows k)
  | _, .either r s, k => r.follows k || s.follows k
  | _, .optional r, k => r.starts k || r.follows k
  | _, .many r, k => r.starts k || r.follows k
  | _, .located r, k => r.follows k

/-- Whether the next token always decides how to go on. -/
def predictive : {α : Type} → Rule α → Bool
  | _, .token _ => true
  | _, .map _ r => r.predictive
  | _, .seq r s => r.predictive && s.predictive && apart r.follows s.starts
  | _, .either r s =>
    r.predictive && s.predictive && !r.nullable && !s.nullable && apart r.starts s.starts
  | _, .optional r => r.predictive && !r.nullable
  | _, .many r => r.predictive && !r.nullable && apart r.follows r.starts
  | _, .located r => r.predictive

variable {α β : Type} {r : Rule α} {s : Rule β} {ts rest used left : List Token}

-- ============================================================================
-- Languages and derivations
-- ============================================================================

theorem mem_language_of_derives (r : Rule α) {a : α} (h : r.Derives ts a) :
    kindsOf ts ∈ r.language := by
  induction r generalizing ts with
  | token k =>
    obtain ⟨rfl, rfl⟩ := h
    rfl
  | map f r ih =>
    obtain ⟨a, h, -⟩ := h
    exact ih h
  | seq r s ihr ihs =>
    obtain ⟨us, vs, rfl, hr, hs⟩ := h
    rw [kindsOf_append]
    exact Language.append_mem_mul (ihr hr) (ihs hs)
  | either r s ihr ihs => exact h.imp ihr ihs
  | optional r ih =>
    cases a with
    | none =>
      obtain rfl : ts = [] := h
      exact .inl rfl
    | some a => exact .inr (ih h)
  | many r ih =>
    induction a generalizing ts with
    | nil =>
      obtain rfl : ts = [] := h
      exact Language.nil_mem_kstar _
    | cons a as ihas =>
      obtain ⟨us, vs, rfl, hus, hvs⟩ := h
      rw [language, ← Language.one_add_self_mul_kstar_eq_kstar, kindsOf_append]
      exact .inr (Language.append_mem_mul (ih hus) (ihas hvs))
  | located r ih => exact ih h.1

theorem derives_of_mem_language (r : Rule α) (h : kindsOf ts ∈ r.language) :
    ∃ a, r.Derives ts a := by
  induction r generalizing ts with
  | token k =>
    obtain ⟨t, rfl, ht⟩ := List.map_eq_singleton_iff.1 h
    exact ⟨t, rfl, ht⟩
  | map f r ih =>
    obtain ⟨a, ha⟩ := ih h
    exact ⟨f a, a, ha, rfl⟩
  | seq r s ihr ihs =>
    obtain ⟨x, hx, y, hy, hxy⟩ := Language.mem_mul.1 h
    obtain ⟨us, vs, rfl, rfl, rfl⟩ := List.map_eq_append_iff.1 hxy.symm
    obtain ⟨a, ha⟩ := ihr hx
    obtain ⟨b, hb⟩ := ihs hy
    exact ⟨(a, b), us, vs, rfl, ha, hb⟩
  | either r s ihr ihs =>
    rcases h with h | h
    · obtain ⟨a, ha⟩ := ihr h
      exact ⟨a, .inl ha⟩
    · obtain ⟨a, ha⟩ := ihs h
      exact ⟨a, .inr ha⟩
  | optional r ih =>
    rcases h with h | h
    · exact ⟨none, List.map_eq_nil_iff.1 h⟩
    · obtain ⟨a, ha⟩ := ih h
      exact ⟨some a, ha⟩
  | many r ih =>
    obtain ⟨parts, hparts, hmem⟩ := Language.mem_kstar.1 h
    induction parts generalizing ts with
    | nil => exact ⟨[], List.map_eq_nil_iff.1 hparts⟩
    | cons x parts ihparts =>
      obtain ⟨us, vs, rfl, rfl, hvs⟩ := List.map_eq_append_iff.1 hparts
      obtain ⟨a, ha⟩ := ih (hmem _ List.mem_cons_self)
      have hrest : ∀ y ∈ parts, y ∈ r.language := fun y hy => hmem y (List.mem_cons_of_mem _ hy)
      obtain ⟨as, has⟩ := ihparts (Language.mem_kstar.2 ⟨parts, hvs, hrest⟩) hvs hrest
      exact ⟨a :: as, us, vs, rfl, ha, has⟩
  | located r ih =>
    obtain ⟨a, ha⟩ := ih h
    exact ⟨⟨(place ts []).1, (place ts []).2, a⟩, ha, rfl⟩

/-- Every rule describes something. -/
theorem exists_mem_language (r : Rule α) : ∃ w, w ∈ r.language := by
  induction r with
  | token k => exact ⟨[k], rfl⟩
  | map f r ih => exact ih
  | seq r s ihr ihs =>
    obtain ⟨x, hx⟩ := ihr
    obtain ⟨y, hy⟩ := ihs
    exact ⟨x ++ y, Language.append_mem_mul hx hy⟩
  | either r s ihr ihs =>
    obtain ⟨x, hx⟩ := ihr
    exact ⟨x, .inl hx⟩
  | optional r ih => exact ⟨[], .inl rfl⟩
  | many r ih => exact ⟨[], Language.nil_mem_kstar _⟩
  | located r ih => exact ih

theorem nullable_of_mem (r : Rule α) (h : [] ∈ r.language) : r.nullable = true := by
  induction r with
  | token k => cases h
  | map f r ih => exact ih h
  | seq r s ihr ihs =>
    obtain ⟨x, hx, y, hy, hxy⟩ := Language.mem_mul.1 h
    obtain ⟨rfl, rfl⟩ := List.append_eq_nil_iff.1 hxy
    rw [nullable, ihr hx, ihs hy]
    rfl
  | either r s ihr ihs =>
    rw [nullable]
    rcases h with h | h
    · rw [ihr h]
      rfl
    · rw [ihs h, Bool.or_true]
  | optional r ih => rfl
  | many r ih => rfl
  | located r ih => exact ih h

theorem starts_of_mem (r : Rule α) {k : Kind} {w : List Kind} (h : k :: w ∈ r.language) :
    r.starts k = true := by
  induction r generalizing w with
  | token k' =>
    obtain ⟨rfl, -⟩ := List.cons.inj h
    simp [starts]
  | map f r ih => exact ih h
  | seq r s ihr ihs =>
    obtain ⟨x, hx, y, hy, hxy⟩ := Language.mem_mul.1 h
    rw [starts]
    cases x with
    | nil =>
      obtain rfl : y = k :: w := hxy
      rw [nullable_of_mem r hx, ihs hy, Bool.and_self, Bool.or_true]
    | cons k' x =>
      obtain ⟨rfl, -⟩ := List.cons.inj hxy
      rw [ihr hx, Bool.true_or]
  | either r s ihr ihs =>
    rw [starts]
    rcases h with h | h
    · rw [ihr h, Bool.true_or]
    · rw [ihs h, Bool.or_true]
  | optional r ih =>
    rcases h with h | h
    · cases h
    · exact ih h
  | many r ih =>
    obtain ⟨parts, hparts, hmem⟩ := Language.mem_kstar_iff_exists_nonempty.1 h
    cases parts with
    | nil => cases hparts
    | cons x parts =>
      obtain ⟨hx, hne⟩ := hmem x (by simp)
      cases x with
      | nil => exact absurd rfl hne
      | cons k' x =>
        obtain ⟨rfl, -⟩ := List.cons.inj hparts
        exact ih hx
  | located r ih => exact ih h

theorem ne_nil_of_mem (hr : r.nullable = false) {w : List Kind} (h : w ∈ r.language) : w ≠ [] := by
  rintro rfl
  rw [nullable_of_mem r h] at hr
  cases hr

end Rule

-- ============================================================================
-- The reader accepts what is derived
-- ============================================================================

section Repetition

variable {α : Type} {starts : List Token → Bool} {p : List Token → Reading α}
  {ts rest left : List Token} {as : List α}

theorem readMany_of_not_starts (h : starts ts = false) : readMany starts p ts = .ok ([], ts) := by
  rw [readMany, h]
  rfl

theorem readMany_of_starts (h : starts ts = true) {a : α} {mid : List Token}
    (hp : p ts = .ok (a, mid)) (hlen : mid.length < ts.length)
    (hmore : readMany starts p mid = .ok (as, rest)) :
    readMany starts p ts = .ok (a :: as, rest) := by
  rw [readMany, h, hp]
  simp [hlen, hmore]

/-- How a repetition that uses up tokens at every turn ends well. -/
theorem readMany_ok (hp : ∀ a mid, p ts = .ok (a, mid) → mid.length < ts.length)
    (h : readMany starts p ts = .ok (as, rest)) :
    (starts ts = false ∧ as = [] ∧ rest = ts) ∨
      ∃ a mid as', p ts = .ok (a, mid) ∧ readMany starts p mid = .ok (as', rest) ∧ as = a :: as' := by
  rw [readMany] at h
  cases hs : starts ts with
  | false =>
    rw [hs] at h
    cases h
    exact .inl ⟨rfl, rfl, rfl⟩
  | true =>
    cases hpts : p ts with
    | error e => simp [hs, hpts] at h
    | ok x =>
      obtain ⟨a, mid⟩ := x
      have hlen := hp a mid hpts
      cases hmore : readMany starts p mid with
      | error e => simp [hs, hpts, hlen, hmore] at h
      | ok y =>
        obtain ⟨as', rest'⟩ := y
        simp only [hs, hpts, hlen, hmore, if_true] at h
        cases h
        exact .inr ⟨a, mid, as', rfl, hmore, rfl⟩

/-- How a repetition that uses up tokens at every turn fails. -/
theorem readMany_error (hp : ∀ a mid, p ts = .ok (a, mid) → mid.length < ts.length)
    (h : readMany starts p ts = .error left) :
    p ts = .error left ∨ ∃ a mid, p ts = .ok (a, mid) ∧ readMany starts p mid = .error left := by
  rw [readMany] at h
  cases hs : starts ts with
  | false =>
    rw [hs] at h
    cases h
  | true =>
    cases hpts : p ts with
    | error e =>
      simp only [hs, hpts, if_true] at h
      cases h
      exact .inl rfl
    | ok x =>
      obtain ⟨a, mid⟩ := x
      have hlen := hp a mid hpts
      cases hmore : readMany starts p mid with
      | error e =>
        simp only [hs, hpts, hlen, hmore, if_true] at h
        cases h
        exact .inr ⟨a, mid, rfl, hmore⟩
      | ok y => simp [hs, hpts, hlen, hmore] at h

end Repetition

/-- The place of tokens does not depend on what comes after them. -/
theorem place_append (ts rest : List Token) : place (ts ++ rest) rest = place ts [] := by
  simp [place]

namespace Rule

variable {α β : Type} {r : Rule α} {s : Rule β} {ts rest used left : List Token}

theorem startsAt_append (hr : r.nullable = false) {a : α} (h : r.Derives ts a) (rest : List Token) :
    r.startsAt (ts ++ rest) = true := by
  have hmem := mem_language_of_derives r h
  cases ts with
  | nil => exact absurd rfl (ne_nil_of_mem hr hmem)
  | cons t ts => exact starts_of_mem r hmem

/-- A rule without the empty sequence uses up tokens. -/
theorem length_lt_of_derives (hr : r.nullable = false) {a : α} (h : r.Derives ts a)
    (rest : List Token) : rest.length < (ts ++ rest).length := by
  have hne : ts ≠ [] := by
    rintro rfl
    exact ne_nil_of_mem hr (mem_language_of_derives r h) rfl
  have hpos := List.length_pos_iff.2 hne
  rw [List.length_append]
  omega

/-- What comes after one part of a sequence cannot continue that part. -/
theorem next_of_seq (h : apart r.follows s.starts = true) {vs : List Token}
    (hvs : kindsOf vs ∈ s.language) (hrest : ∀ t ∈ rest.head?, (r.seq s).follows t.kind = false) :
    ∀ t ∈ (vs ++ rest).head?, r.follows t.kind = false := by
  cases vs with
  | nil =>
    intro t ht
    have hnext := hrest t ht
    rw [follows, nullable_of_mem s hvs, Bool.true_and, Bool.or_eq_false_iff] at hnext
    exact hnext.2
  | cons v vs =>
    intro t ht
    obtain rfl : v = t := Option.some.inj ht
    exact apart_spec h (starts_of_mem s hvs)

/-- What a predictive rule derives is read, if the next token does not continue
    it. -/
theorem read_of_derives (r : Rule α) (hr : r.predictive = true) {a : α} (h : r.Derives ts a)
    (hrest : ∀ t ∈ rest.head?, r.follows t.kind = false) : r.read (ts ++ rest) = .ok (a, rest) := by
  induction r generalizing ts rest with
  | token k =>
    obtain ⟨rfl, rfl⟩ := h
    simp [read]
  | map f r ih =>
    obtain ⟨a, h, rfl⟩ := h
    rw [read, ih hr h hrest]
  | seq r s ihr ihs =>
    simp only [predictive, Bool.and_eq_true] at hr
    obtain ⟨⟨hpr, hps⟩, hapart⟩ := hr
    obtain ⟨us, vs, rfl, hus, hvs⟩ := h
    have hlast : ∀ t ∈ rest.head?, s.follows t.kind = false := by
      intro t ht
      have hnext := hrest t ht
      rw [follows, Bool.or_eq_false_iff] at hnext
      exact hnext.1
    rw [List.append_assoc, read,
      ihr hpr hus (next_of_seq hapart (mem_language_of_derives s hvs) hrest)]
    simp only [ihs hps hvs hlast]
  | either r s ihr ihs =>
    simp only [predictive, Bool.and_eq_true, Bool.not_eq_true'] at hr
    obtain ⟨⟨⟨⟨hpr, hps⟩, hnr⟩, hns⟩, hapart⟩ := hr
    have hlast : ∀ t ∈ rest.head?, r.follows t.kind = false ∧ s.follows t.kind = false := by
      intro t ht
      have hnext := hrest t ht
      rwa [follows, Bool.or_eq_false_iff] at hnext
    rw [read]
    rcases h with h | h
    · rw [startsAt_append hnr h, if_pos rfl]
      exact ihr hpr h fun t ht => (hlast t ht).1
    · -- the second alternative starts with a token that the first does not
      have hstart : r.startsAt (ts ++ rest) = false := by
        have hmem := mem_language_of_derives s h
        cases ts with
        | nil => exact absurd rfl (ne_nil_of_mem hns hmem)
        | cons t ts => exact apart_spec hapart (starts_of_mem s hmem)
      rw [hstart, if_neg Bool.false_ne_true]
      exact ihs hps h fun t ht => (hlast t ht).2
  | optional r ih =>
    simp only [predictive, Bool.and_eq_true, Bool.not_eq_true'] at hr
    have hlast : ∀ t ∈ rest.head?, r.starts t.kind = false ∧ r.follows t.kind = false := by
      intro t ht
      have hnext := hrest t ht
      rwa [follows, Bool.or_eq_false_iff] at hnext
    rw [read]
    cases a with
    | none =>
      obtain rfl : ts = [] := h
      have hstart : r.startsAt rest = false := by
        cases rest with
        | nil => rfl
        | cons t rest => exact (hlast t rfl).1
      rw [List.nil_append, hstart, if_neg Bool.false_ne_true]
    | some a =>
      have hderives : r.Derives ts a := h
      rw [startsAt_append hr.2 hderives, if_pos rfl, ih hr.1 hderives fun t ht => (hlast t ht).2]
  | many r ih =>
    simp only [predictive, Bool.and_eq_true, Bool.not_eq_true'] at hr
    obtain ⟨⟨hpr, hnr⟩, hapart⟩ := hr
    have hlast : ∀ t ∈ rest.head?, r.starts t.kind = false ∧ r.follows t.kind = false := by
      intro t ht
      have hnext := hrest t ht
      rwa [follows, Bool.or_eq_false_iff] at hnext
    rw [read]
    induction a generalizing ts with
    | nil =>
      obtain rfl : ts = [] := h
      have hstart : r.startsAt rest = false := by
        cases rest with
        | nil => rfl
        | cons t rest => exact (hlast t rfl).1
      exact readMany_of_not_starts hstart
    | cons a as ihas =>
      obtain ⟨us, vs, rfl, hus, hvs⟩ := h
      have hmem : kindsOf vs ∈ r.language∗ := mem_language_of_derives r.many hvs
      have hnext : ∀ t ∈ (vs ++ rest).head?, r.follows t.kind = false := by
        cases vs with
        | nil => exact fun t ht => (hlast t ht).2
        | cons v vs =>
          intro t ht
          obtain rfl : v = t := Option.some.inj ht
          exact apart_spec hapart (starts_of_mem r.many hmem)
      rw [List.append_assoc]
      exact readMany_of_starts (startsAt_append hnr hus _) (ih hpr hus hnext)
        (length_lt_of_derives hnr hus _) (ihas hvs)
  | located r ih =>
    rw [read, ih hr h.1 hrest]
    simp only [place_append, h.2]

/-- What a predictive rule describes is read, if the next token does not continue
    it. -/
theorem read_of_mem_language (hr : r.predictive = true) (h : kindsOf ts ∈ r.language)
    (hrest : ∀ t ∈ rest.head?, r.follows t.kind = false) :
    ∃ a, r.read (ts ++ rest) = .ok (a, rest) := by
  obtain ⟨a, ha⟩ := derives_of_mem_language r h
  exact ⟨a, read_of_derives r hr ha hrest⟩

end Rule

-- ============================================================================
-- Where reading stops
-- ============================================================================

/-- Some kinds begin a sequence of a language. -/
def Viable (L : Language Kind) (w : List Kind) : Prop := ∃ u, w ++ u ∈ L

/-- The tokens used up begin no sequence of the language together with the next
    one. -/
def Stops (L : Language Kind) (used rest : List Token) : Prop :=
  ∀ t ∈ rest.head?, ¬ Viable L (kindsOf used ++ [t.kind])

theorem Viable.of_append {L : Language Kind} {w u : List Kind} (h : Viable L (w ++ u)) :
    Viable L w := by
  obtain ⟨v, hv⟩ := h
  exact ⟨u ++ v, by rwa [← List.append_assoc]⟩

theorem Viable.mul_left {L M : Language Kind} {w : List Kind} (h : Viable L w)
    (hM : ∃ u, u ∈ M) : Viable (L * M) w := by
  obtain ⟨u, hu⟩ := h
  obtain ⟨v, hv⟩ := hM
  exact ⟨u ++ v, by simpa using Language.append_mem_mul hu hv⟩

theorem Viable.mul_right {L M : Language Kind} {v w : List Kind} (hv : v ∈ L) (h : Viable M w) :
    Viable (L * M) (v ++ w) := by
  obtain ⟨u, hu⟩ := h
  exact ⟨u, by simpa using Language.append_mem_mul hv hu⟩

theorem Viable.kstar {L : Language Kind} {w : List Kind} (h : Viable (L * L∗) w) : Viable L∗ w := by
  obtain ⟨u, hu⟩ := h
  rw [← Language.one_add_self_mul_kstar_eq_kstar]
  exact ⟨u, .inr hu⟩

theorem Stops.one_add {L : Language Kind} {used rest : List Token} (h : Stops L used rest) :
    Stops (1 + L) used rest := by
  rintro t ht ⟨u, hu | hu⟩
  · have hnil : kindsOf used ++ [t.kind] ++ u = [] := hu
    simp at hnil
  · exact h t ht ⟨u, hu⟩

theorem Stops.add {L M : Language Kind} {used rest : List Token} (h : Stops L used rest)
    (h' : Stops M used rest) : Stops (L + M) used rest := by
  rintro t ht ⟨u, hu | hu⟩
  · exact h t ht ⟨u, hu⟩
  · exact h' t ht ⟨u, hu⟩

namespace Rule

variable {α β : Type} {r : Rule α} {s : Rule β} {ts rest used left : List Token}

/-- Where a sequence stops: `used` is where the first part stopped. A sequence
    that the next token continues is cut somewhere. A cut before the end of
    `used` would have made the reader stop there, and a cut after it is a
    continuation of the first part. -/
theorem stops_mul (hr : r.predictive = true) {L : Language Kind}
    (hL : ∀ k w, k :: w ∈ L → r.follows k = false) {vs : List Token}
    (hstop : Stops r.language used (vs ++ rest))
    (hcut : ∀ a ys, r.read (used ++ (vs ++ rest)) = .ok (a, ys) → ys = vs ++ rest ∧ Stops L vs rest) :
    Stops (r.language * L) (used ++ vs) rest := by
  rintro t ht ⟨u, hu⟩
  obtain ⟨rest, rfl⟩ : ∃ tail, rest = t :: tail := List.head?_eq_some_iff.1 ht
  obtain ⟨x, hx, y, hy, hxy⟩ := Language.mem_mul.1 hu
  rw [kindsOf_append, List.append_assoc, List.append_assoc] at hxy
  -- the kind after `used`, in the tokens and in the sequence
  obtain ⟨n, w, hn, hkinds⟩ : ∃ n w, (vs ++ t :: rest).head? = some n ∧
      kindsOf vs ++ ([t.kind] ++ u) = n.kind :: w := by
    cases vs with
    | nil => exact ⟨t, u, rfl, rfl⟩
    | cons v vs => exact ⟨v, _, rfl, rfl⟩
  -- a cut at or before the end of `used`
  have hbefore : ∀ z, kindsOf used = x ++ z → y = z ++ (kindsOf vs ++ ([t.kind] ++ u)) → False := by
    intro z hz hyz
    obtain ⟨us, zs, rfl, rfl, rfl⟩ := List.map_eq_append_iff.1 hz
    have hnext : ∀ m ∈ (zs ++ (vs ++ t :: rest)).head?, r.follows m.kind = false := by
      intro m hm
      cases zs with
      | nil =>
        obtain rfl : n = m := Option.some.inj (hn.symm.trans hm)
        refine hL n.kind w ?_
        rw [← hkinds]
        simpa using hyz ▸ hy
      | cons z zs =>
        obtain rfl : z = m := Option.some.inj hm
        exact hL z.kind _ (by simpa using hyz ▸ hy)
    obtain ⟨a, ha⟩ := read_of_mem_language hr hx hnext
    rw [← List.append_assoc] at ha
    obtain ⟨heq, hstop'⟩ := hcut a _ ha
    obtain rfl : zs = [] := List.append_left_eq_self.1 heq
    exact hstop' t rfl ⟨u, by simpa using hyz ▸ hy⟩
  rcases List.append_eq_append_iff.1 hxy with ⟨z, hz, hyz⟩ | ⟨z, hz, hyz⟩
  · exact hbefore z hz hyz
  · cases z with
    | nil => exact hbefore [] (by simpa using hz.symm) (by simpa using hyz.symm)
    | cons k z =>
      rw [hkinds] at hyz
      obtain ⟨rfl, -⟩ := List.cons.inj hyz
      exact hstop n hn ⟨z, by simpa using hz ▸ hx⟩

/-- Where a repetition stops, as for sequences. -/
theorem stops_many (hr : r.predictive = true) (h : apart r.follows r.starts = true) {vs : List Token}
    (hstop : Stops r.language used (vs ++ rest))
    (hcut : ∀ a ys, r.read (used ++ (vs ++ rest)) = .ok (a, ys) →
      ys = vs ++ rest ∧ Stops r.many.language vs rest) :
    Stops r.many.language (used ++ vs) rest := by
  have hL : ∀ k w, k :: w ∈ r.many.language → r.follows k = false := fun k w hk =>
    apart_spec h (starts_of_mem r.many hk)
  have hstops : Stops (1 + r.language * r.language∗) (used ++ vs) rest :=
    (stops_mul hr hL hstop hcut).one_add
  rw [Language.one_add_self_mul_kstar_eq_kstar] at hstops
  exact hstops

theorem follows_of_mem (h : apart r.follows s.starts = true) (k : Kind) (w : List Kind)
    (hk : k :: w ∈ s.language) : r.follows k = false :=
  apart_spec h (starts_of_mem s hk)

/-- A rule describes nothing with a first token that it does not start with. -/
theorem stops_of_not_starts (h : r.startsAt (used ++ rest) = false) : Stops r.language used rest := by
  rintro t ht ⟨u, hu⟩
  cases used with
  | nil =>
    obtain ⟨rest, rfl⟩ : ∃ tail, rest = t :: tail := List.head?_eq_some_iff.1 ht
    have hstart : r.startsAt (t :: rest) = true := starts_of_mem r hu
    exact Bool.false_ne_true (h.symm.trans hstart)
  | cons v used =>
    have hstart : r.startsAt (v :: used ++ rest) = true := starts_of_mem r hu
    exact Bool.false_ne_true (h.symm.trans hstart)

theorem not_startsAt_of_apart {p : Rule β} (h : apart r.starts p.starts = true)
    (hr : r.startsAt ts = true) : p.startsAt ts = false := by
  cases ts with
  | nil => rfl
  | cons t ts =>
    cases hp : p.starts t.kind with
    | false => exact hp
    | true =>
      have hr' : r.starts t.kind = true := hr
      rw [apart_spec h hp] at hr'
      cases hr'

/-- What a predictive rule reads it derives, and it reads as far as it can. -/
theorem derives_of_read (r : Rule α) (hr : r.predictive = true) {a : α}
    (h : r.read ts = .ok (a, rest)) :
    ∃ used, used ++ rest = ts ∧ r.Derives used a ∧ Stops r.language used rest := by
  induction r generalizing ts rest with
  | token k =>
    cases ts with
    | nil => cases h
    | cons t ts =>
      rw [read] at h
      split at h
      · rename_i hk
        cases h
        refine ⟨[a], rfl, ⟨rfl, hk⟩, ?_⟩
        rintro n - ⟨u, hu⟩
        cases (List.cons.inj hu).2
      · cases h
  | map f r ih =>
    rw [read] at h
    cases hread : r.read ts with
    | error e => simp [hread] at h
    | ok x =>
      obtain ⟨b, mid⟩ := x
      simp only [hread] at h
      cases h
      obtain ⟨used, hused, hderives, hstop⟩ := ih hr hread
      exact ⟨used, hused, ⟨b, hderives, rfl⟩, hstop⟩
  | seq r s ihr ihs =>
    simp only [predictive, Bool.and_eq_true] at hr
    obtain ⟨⟨hpr, hps⟩, hapart⟩ := hr
    rw [read] at h
    cases hread : r.read ts with
    | error e => simp [hread] at h
    | ok x =>
      obtain ⟨a, mid⟩ := x
      cases hread' : s.read mid with
      | error e => simp [hread, hread'] at h
      | ok y =>
        obtain ⟨b, rest'⟩ := y
        simp only [hread, hread'] at h
        cases h
        obtain ⟨us, rfl, hus, hstop⟩ := ihr hpr hread
        obtain ⟨vs, rfl, hvs, hstop'⟩ := ihs hps hread'
        refine ⟨us ++ vs, List.append_assoc _ _ _, ⟨us, vs, rfl, hus, hvs⟩, ?_⟩
        refine stops_mul hpr (follows_of_mem hapart) hstop ?_
        intro a' ys hys
        cases hread.symm.trans hys
        exact ⟨rfl, hstop'⟩
  | either r s ihr ihs =>
    simp only [predictive, Bool.and_eq_true, Bool.not_eq_true'] at hr
    obtain ⟨⟨⟨⟨hpr, hps⟩, -⟩, -⟩, hapart⟩ := hr
    rw [read] at h
    cases hstart : r.startsAt ts with
    | true =>
      rw [hstart, if_pos rfl] at h
      obtain ⟨used, rfl, hderives, hstop⟩ := ihr hpr h
      exact ⟨used, rfl, .inl hderives,
        hstop.add (stops_of_not_starts (not_startsAt_of_apart hapart hstart))⟩
    | false =>
      rw [hstart, if_neg Bool.false_ne_true] at h
      obtain ⟨used, rfl, hderives, hstop⟩ := ihs hps h
      exact ⟨used, rfl, .inr hderives, (stops_of_not_starts hstart).add hstop⟩
  | optional r ih =>
    simp only [predictive, Bool.and_eq_true, Bool.not_eq_true'] at hr
    rw [read] at h
    cases hstart : r.startsAt ts with
    | true =>
      cases hread : r.read ts with
      | error e => simp [hstart, hread] at h
      | ok x =>
        obtain ⟨b, mid⟩ := x
        simp only [hstart, hread, if_true] at h
        cases h
        obtain ⟨used, hused, hderives, hstop⟩ := ih hr.1 hread
        exact ⟨used, hused, hderives, hstop.one_add⟩
    | false =>
      rw [hstart, if_neg Bool.false_ne_true] at h
      cases h
      exact ⟨[], rfl, rfl, (stops_of_not_starts hstart).one_add⟩
  | many r ih =>
    simp only [predictive, Bool.and_eq_true, Bool.not_eq_true'] at hr
    obtain ⟨⟨hpr, hnr⟩, hapart⟩ := hr
    have hlen : ∀ {ts : List Token} a mid, r.read ts = .ok (a, mid) → mid.length < ts.length := by
      intro ts a mid hread
      obtain ⟨used, rfl, hderives, -⟩ := ih hpr hread
      exact length_lt_of_derives hnr hderives mid
    rw [read] at h
    induction a generalizing ts with
    | nil =>
      rcases readMany_ok hlen h with ⟨hstart, -, rfl⟩ | ⟨a, mid, as', -, -, hcons⟩
      · have hstop : Stops r.many.language [] rest := stops_of_not_starts hstart
        exact ⟨[], rfl, rfl, hstop⟩
      · cases hcons
    | cons a as ihas =>
      rcases readMany_ok hlen h with ⟨-, hnil, -⟩ | ⟨a', mid, as', hread, hmore, hcons⟩
      · cases hnil
      · cases hcons
        obtain ⟨us, rfl, hus, hstop⟩ := ih hpr hread
        obtain ⟨vs, rfl, hvs, hstop'⟩ := ihas hmore
        refine ⟨us ++ vs, List.append_assoc _ _ _, ⟨us, vs, rfl, hus, hvs⟩, ?_⟩
        refine stops_many hpr hapart hstop ?_
        intro a' ys hys
        cases hread.symm.trans hys
        exact ⟨rfl, hstop'⟩
  | located r ih =>
    rw [read] at h
    cases hread : r.read ts with
    | error e => simp [hread] at h
    | ok x =>
      obtain ⟨b, mid⟩ := x
      simp only [hread] at h
      cases h
      obtain ⟨used, rfl, hderives, hstop⟩ := ih hr hread
      exact ⟨used, rfl, ⟨hderives, by simp only [place_append]⟩, hstop⟩

/-- Where a predictive rule fails to read on, the tokens before begin a sequence of
    it, and none together with the next token. -/
theorem viable_of_read (r : Rule α) (hr : r.predictive = true) (h : r.read ts = .error left) :
    ∃ used, used ++ left = ts ∧ Viable r.language (kindsOf used) ∧ Stops r.language used left := by
  induction r generalizing ts left with
  | token k =>
    have hleft : left = ts ∧ ∀ t ∈ ts.head?, t.kind ≠ k := by
      cases ts with
      | nil =>
        cases h
        exact ⟨rfl, by simp⟩
      | cons t ts =>
        rw [read] at h
        split at h
        · cases h
        · rename_i hk
          cases h
          exact ⟨rfl, by simpa using hk⟩
    obtain ⟨rfl, hne⟩ := hleft
    refine ⟨[], rfl, ⟨[k], rfl⟩, ?_⟩
    rintro t ht ⟨u, hu⟩
    exact hne t ht (List.cons.inj hu).1
  | map f r ih =>
    rw [read] at h
    cases hread : r.read ts with
    | ok x => simp [hread] at h
    | error e =>
      simp only [hread] at h
      cases h
      exact ih hr hread
  | seq r s ihr ihs =>
    simp only [predictive, Bool.and_eq_true] at hr
    obtain ⟨⟨hpr, hps⟩, hapart⟩ := hr
    rw [read] at h
    cases hread : r.read ts with
    | error e =>
      simp only [hread] at h
      cases h
      obtain ⟨used, rfl, hviable, hstop⟩ := ihr hpr hread
      refine ⟨used, rfl, hviable.mul_left (exists_mem_language s), ?_⟩
      have hstops : Stops (r.language * s.language) (used ++ []) left := by
        refine stops_mul hpr (follows_of_mem hapart) hstop ?_
        intro a ys hys
        cases hread.symm.trans hys
      rwa [List.append_nil] at hstops
    | ok x =>
      obtain ⟨a, mid⟩ := x
      cases hread' : s.read mid with
      | ok y => simp [hread, hread'] at h
      | error e =>
        simp only [hread, hread'] at h
        cases h
        obtain ⟨us, rfl, hus, hstop⟩ := derives_of_read r hpr hread
        obtain ⟨vs, rfl, hviable, hstop'⟩ := ihs hps hread'
        refine ⟨us ++ vs, List.append_assoc _ _ _, ?_, ?_⟩
        · rw [kindsOf_append]
          exact hviable.mul_right (mem_language_of_derives r hus)
        · refine stops_mul hpr (follows_of_mem hapart) hstop ?_
          intro a' ys hys
          cases hread.symm.trans hys
          exact ⟨rfl, hstop'⟩
  | either r s ihr ihs =>
    simp only [predictive, Bool.and_eq_true, Bool.not_eq_true'] at hr
    obtain ⟨⟨⟨⟨hpr, hps⟩, -⟩, -⟩, hapart⟩ := hr
    rw [read] at h
    cases hstart : r.startsAt ts with
    | true =>
      rw [hstart, if_pos rfl] at h
      obtain ⟨used, rfl, ⟨u, hu⟩, hstop⟩ := ihr hpr h
      exact ⟨used, rfl, ⟨u, .inl hu⟩,
        hstop.add (stops_of_not_starts (not_startsAt_of_apart hapart hstart))⟩
    | false =>
      rw [hstart, if_neg Bool.false_ne_true] at h
      obtain ⟨used, rfl, ⟨u, hu⟩, hstop⟩ := ihs hps h
      exact ⟨used, rfl, ⟨u, .inr hu⟩, (stops_of_not_starts hstart).add hstop⟩
  | optional r ih =>
    simp only [predictive, Bool.and_eq_true, Bool.not_eq_true'] at hr
    rw [read] at h
    cases hstart : r.startsAt ts with
    | true =>
      cases hread : r.read ts with
      | ok x => simp [hstart, hread] at h
      | error e =>
        simp only [hstart, hread, if_true] at h
        cases h
        obtain ⟨used, hused, ⟨u, hu⟩, hstop⟩ := ih hr.1 hread
        exact ⟨used, hused, ⟨u, .inr hu⟩, hstop.one_add⟩
    | false =>
      rw [hstart, if_neg Bool.false_ne_true] at h
      cases h
  | many r ih =>
    simp only [predictive, Bool.and_eq_true, Bool.not_eq_true'] at hr
    obtain ⟨⟨hpr, hnr⟩, hapart⟩ := hr
    have hlen : ∀ {ts : List Token} a mid, r.read ts = .ok (a, mid) → mid.length < ts.length := by
      intro ts a mid hread
      obtain ⟨used, rfl, hderives, -⟩ := derives_of_read r hpr hread
      exact length_lt_of_derives hnr hderives mid
    rw [read] at h
    induction hn : ts.length using Nat.strong_induction_on generalizing ts with
    | h n ihn =>
      rcases readMany_error hlen h with hread | ⟨a, mid, hread, hmore⟩
      · obtain ⟨used, rfl, hviable, hstop⟩ := ih hpr hread
        refine ⟨used, rfl, (hviable.mul_left (exists_mem_language r.many)).kstar, ?_⟩
        have hstops : Stops r.many.language (used ++ []) left := by
          refine stops_many hpr hapart hstop ?_
          intro a ys hys
          cases hread.symm.trans hys
        rwa [List.append_nil] at hstops
      · have hshort := hlen a mid hread
        obtain ⟨us, rfl, hus, hstop⟩ := derives_of_read r hpr hread
        obtain ⟨vs, rfl, hviable, hstop'⟩ := ihn mid.length (hn ▸ hshort) hmore rfl
        refine ⟨us ++ vs, List.append_assoc _ _ _, ?_, ?_⟩
        · rw [kindsOf_append]
          exact (hviable.mul_right (mem_language_of_derives r hus)).kstar
        · refine stops_many hpr hapart hstop ?_
          intro a' ys hys
          cases hread.symm.trans hys
          exact ⟨rfl, hstop'⟩
  | located r ih =>
    rw [read] at h
    cases hread : r.read ts with
    | ok x => simp [hread] at h
    | error e =>
      simp only [hread] at h
      cases h
      exact ih hr hread

end Rule

end Sendability.Source
