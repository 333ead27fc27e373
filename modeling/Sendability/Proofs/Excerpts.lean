/-
  Excerpts of a text between two of its places.

  Scanning counts lines and columns as it goes. `placeAfter` counts them afresh: the
  line by the line feeds before a character, the column by the characters since the
  last of them. Both agree (`place_advanceAll`), and places grow with every character,
  so the characters between two places are a contiguous piece of the text
  (`excerpt_append`).

  A run of tokens that scanning finds one after the other is found again in the
  excerpt from the start of the first to the stop of the last (`Scans.segment`): a
  lexeme never depends on characters beyond the one after it, and what is cut away
  only takes that character from the last (`lexeme?_cut`).
-/

import Mathlib.Data.List.Induction
import Mathlib.Data.List.TakeWhile
import Mathlib.Data.Prod.Lex
import Sendability.Proofs.Writing

namespace Sendability.Source

-- ============================================================================
-- Places
-- ============================================================================

/-- The line and the column of a position, in reading order. -/
def Position.place (p : Position) : Int ×ₗ Int := toLex ((p.line : Int), (p.column : Int))

/-- The line and the column of what comes after some characters at the start of a
    text. -/
def placeAfter (cs : List CodePoint) : Int ×ₗ Int :=
  toLex (1 + (cs.count '\n'.toNat : Int),
    1 + ((cs.reverse.takeWhile (· ≠ '\n'.toNat)).length : Int))

/-- The characters of a text whose places are from `a` on and before `b`. -/
def excerpt (cs : List CodePoint) (a b : Int ×ₗ Int) : List CodePoint :=
  (cs.zipIdx.filter fun c =>
    a ≤ placeAfter (cs.take c.2) ∧ placeAfter (cs.take c.2) < b).map Prod.fst

theorem Position.advanceAll_append (p : Position) (cs ds : List CodePoint) :
    p.advanceAll (cs ++ ds) = (p.advanceAll cs).advanceAll ds :=
  List.foldl_append

/-- The place one character further. -/
def nextPlace (a : Int ×ₗ Int) (c : CodePoint) : Int ×ₗ Int :=
  if c = '\n'.toNat then toLex ((ofLex a).1 + 1, 1) else toLex ((ofLex a).1, (ofLex a).2 + 1)

theorem Position.place_advance (p : Position) (c : CodePoint) :
    (p.advance c).place = nextPlace p.place c := by
  rw [advance, nextPlace]
  split
  · simp [place]
  · simp [place]

theorem placeAfter_concat (cs : List CodePoint) (c : CodePoint) :
    placeAfter (cs ++ [c]) = nextPlace (placeAfter cs) c := by
  rw [placeAfter, nextPlace, placeAfter, List.count_append, List.reverse_append,
    List.reverse_singleton, List.singleton_append]
  split
  · rename_i hc
    rw [hc, List.count_singleton_self, List.takeWhile_cons_of_neg (by simp), List.length_nil]
    simp only [ofLex_toLex, Int.natCast_add]
    rfl
  · rename_i hc
    have hnone : [c].count '\n'.toNat = 0 :=
      List.count_eq_zero_of_not_mem (by simpa using Ne.symm hc)
    rw [hnone, List.takeWhile_cons_of_pos (by simpa using hc), List.length_cons]
    simp only [ofLex_toLex, Int.natCast_add]
    rfl

/-- The position that scanning keeps has the line and the column of its place. -/
theorem place_advanceAll (cs : List CodePoint) :
    (Position.advanceAll {} cs).place = placeAfter cs := by
  induction cs using List.reverseRecOn with
  | nil => rfl
  | append_singleton cs c ih =>
    rw [placeAfter_concat, ← ih, ← Position.place_advance, Position.advanceAll_append]
    rfl

theorem Position.place_lt_advance (p : Position) (c : CodePoint) :
    p.place < (p.advance c).place := by
  rw [place, place, advance, Prod.Lex.toLex_lt_toLex]
  split
  · left
    simp only
    omega
  · right
    simp only [true_and]
    omega

theorem Position.place_le_advanceAll (p : Position) (cs : List CodePoint) :
    p.place ≤ (p.advanceAll cs).place := by
  induction cs generalizing p with
  | nil => exact le_refl _
  | cons c cs ih => exact (p.place_lt_advance c).le.trans (ih (p.advance c))

theorem Position.place_lt_advanceAll (p : Position) {cs : List CodePoint} (h : cs ≠ []) :
    p.place < (p.advanceAll cs).place := by
  cases cs with
  | nil => exact absurd rfl h
  | cons c cs => exact (p.place_lt_advance c).trans_le ((p.advance c).place_le_advanceAll cs)

theorem placeAfter_le (cs ds : List CodePoint) : placeAfter cs ≤ placeAfter (cs ++ ds) := by
  rw [← place_advanceAll, ← place_advanceAll, Position.advanceAll_append]
  exact Position.place_le_advanceAll _ _

theorem placeAfter_lt (cs : List CodePoint) {ds : List CodePoint} (h : ds ≠ []) :
    placeAfter cs < placeAfter (cs ++ ds) := by
  rw [← place_advanceAll, ← place_advanceAll, Position.advanceAll_append]
  exact Position.place_lt_advanceAll _ h

/-- The characters before, within and after a piece lie on the three sides of its
    places. -/
theorem excerpt_append (x y z : List CodePoint) :
    excerpt (x ++ (y ++ z)) (placeAfter x) (placeAfter (x ++ y)) = y := by
  have hx : ∀ c ∈ x.zipIdx, placeAfter ((x ++ (y ++ z)).take c.2) < placeAfter x := by
    intro c hc
    obtain ⟨hlt, -⟩ := List.mem_zipIdx' hc
    rw [List.take_append_of_le_length hlt.le]
    have hdrop : x.drop c.2 ≠ [] := by simpa using hlt
    simpa using placeAfter_lt (x.take c.2) hdrop
  have hy : ∀ c ∈ y.zipIdx x.length, placeAfter x ≤ placeAfter ((x ++ (y ++ z)).take c.2) ∧
      placeAfter ((x ++ (y ++ z)).take c.2) < placeAfter (x ++ y) := by
    intro c hc
    obtain ⟨hle, hlt, -⟩ := List.mem_zipIdx hc
    obtain ⟨i, hi⟩ := Nat.exists_eq_add_of_le hle
    have hlt : i < y.length := by omega
    rw [hi, List.take_length_add_append, List.take_append_of_le_length hlt.le]
    refine ⟨placeAfter_le _ _, ?_⟩
    have hdrop : y.drop i ≠ [] := by simpa using hlt
    simpa using placeAfter_lt (x ++ y.take i) hdrop
  have hz : ∀ c ∈ z.zipIdx (x.length + y.length),
      placeAfter (x ++ y) ≤ placeAfter ((x ++ (y ++ z)).take c.2) := by
    intro c hc
    obtain ⟨hle, -, -⟩ := List.mem_zipIdx hc
    obtain ⟨i, hi⟩ := Nat.exists_eq_add_of_le hle
    rw [hi, ← List.append_assoc, ← List.length_append, List.take_length_add_append]
    exact placeAfter_le _ _
  rw [excerpt, List.zipIdx_append, List.zipIdx_append, List.filter_append, List.filter_append,
    Nat.zero_add, List.filter_eq_nil_iff.2, List.filter_eq_self.2, List.filter_eq_nil_iff.2]
  · simp
  · intro c hc
    simpa using fun _ => hz c hc
  · intro c hc
    simpa using hy c hc
  · intro c hc
    simpa using fun hle => absurd hle (hx c hc).not_ge

-- ============================================================================
-- Lexemes
-- ============================================================================

section Cut

variable {p : CodePoint → Bool} {w r z : List CodePoint}

/-- Characters of a class are taken as well when the text is cut somewhere after them. -/
theorem takeWhile_cut (htake : (w ++ (r ++ z)).takeWhile p = w)
    (hdrop : (w ++ (r ++ z)).dropWhile p = r ++ z) :
    (w ++ r).takeWhile p = w ∧ (w ++ r).dropWhile p = r := by
  refine takeWhile_append_stop ?_ ?_
  · intro c hc
    rw [← htake] at hc
    exact List.mem_takeWhile_imp hc
  · intro c hc
    have hnot := List.head?_dropWhile_not p (w ++ (r ++ z))
    rw [hdrop, List.head?_append, Option.mem_def.1 hc] at hnot
    exact hnot

theorem head?_of_cut {c : CodePoint} (h : (w ++ r).head? = some c) :
    (w ++ (r ++ z)).head? = some c := by
  rw [← List.append_assoc, List.head?_append, h]
  rfl

/-- A character of the class at the front is taken. -/
theorem head?_of_takeWhile {c : CodePoint} (htake : (w ++ z).takeWhile p = w)
    (hhead : (w ++ z).head? = some c) (hc : p c = true) : w.head? = some c := by
  cases w with
  | cons d w => exact hhead
  | nil =>
    cases z with
    | nil => cases hhead
    | cons d z =>
      obtain rfl := Option.some.inj hhead
      rw [List.nil_append, List.takeWhile_cons_of_pos hc] at htake
      cases htake

/-- The same for a lexeme of a character and those of a class after it. -/
theorem lexeme_cut {k kind : Option Kind} {c : CodePoint}
    (h : some (⟨k, c :: (w ++ (r ++ z)).takeWhile p, (w ++ (r ++ z)).dropWhile p⟩ : Lexeme) =
      some ⟨kind, c :: w, r ++ z⟩) :
    k = kind ∧ (w ++ (r ++ z)).takeWhile p = w ∧ (w ++ r).takeWhile p = w ∧
      (w ++ r).dropWhile p = r := by
  obtain ⟨hkind, htext, hrest⟩ := Lexeme.mk.inj (Option.some.inj h)
  have htake := (List.cons.inj htext).2
  exact ⟨hkind, htake, takeWhile_cut htake hrest⟩

/-- A lexeme is the same when the text is cut somewhere after it. -/
theorem lexeme?_cut {kind : Option Kind} {text : List CodePoint}
    (h : lexeme? (text ++ (r ++ z)) = some ⟨kind, text, r ++ z⟩) :
    lexeme? (text ++ r) = some ⟨kind, text, r⟩ := by
  cases text with
  | nil => exact absurd rfl (lexeme?_text_ne_nil h)
  | cons c w =>
    rw [List.cons_append] at h ⊢
    -- Two of the tests look at the next character. It belongs to the lexeme if the test
    -- succeeds, and the cut leaves it as it is or takes it away.
    simp only [lexeme?, Bool.or_eq_true, Bool.and_eq_true, decide_eq_true_eq,
      Option.any_eq_true] at h ⊢
    split at h
    · rename_i hblank
      obtain ⟨rfl, -, htake, hdrop⟩ := lexeme_cut h
      rw [if_pos hblank, htake, hdrop]
    rename_i hblank
    rw [if_neg hblank]
    split at h
    · rename_i hcomment
      obtain ⟨rfl, hwhole, htake, hdrop⟩ := lexeme_cut h
      rw [if_pos ?_, htake, hdrop]
      refine hcomment.imp_right fun hstrokes => ⟨hstrokes.1, ?_⟩
      rw [List.head?_append, head?_of_takeWhile hwhole hstrokes.2 (by decide)]
      rfl
    rename_i hcomment
    rw [if_neg fun hcut => hcomment (hcut.imp_right fun h => ⟨h.1, head?_of_cut h.2⟩)]
    split at h
    · rename_i hword
      obtain ⟨rfl, hwhole, htake, hdrop⟩ := lexeme_cut h
      rw [if_pos hword, htake, hdrop, hwhole]
    rename_i hword
    rw [if_neg hword]
    split at h
    · rename_i hlabel
      obtain ⟨rfl, hwhole, htake, hdrop⟩ := lexeme_cut h
      obtain ⟨hsigil, d, hd, hstart⟩ := hlabel
      have hpart : isWordPart d = true := by simp [isWordPart, hstart]
      rw [if_pos ?_, htake, hdrop]
      refine ⟨hsigil, d, ?_, hstart⟩
      rw [List.head?_append, head?_of_takeWhile hwhole hd hpart]
      rfl
    · rename_i hlabel
      obtain ⟨m, hm, hlexeme⟩ := Option.map_eq_some_iff.1 h
      obtain ⟨rfl, htext, -⟩ := Lexeme.mk.inj hlexeme
      obtain rfl : [] = w := (List.cons.inj htext).2
      rw [if_neg ?_, hm]
      · rfl
      · rintro ⟨hsigil, d, hd, hstart⟩
        exact hlabel ⟨hsigil, d, head?_of_cut hd, hstart⟩

end Cut

-- ============================================================================
-- Runs of tokens
-- ============================================================================

/-- The text that begins at a position is cut into tokens, up to its end or up to a
    character that starts no lexeme. -/
inductive Scans : Position → List CodePoint → List Token → Option Position → Prop
  | done {pos : Position} : Scans pos [] [] none
  | stuck {pos : Position} {cs : List CodePoint} (hcs : cs ≠ []) (h : lexeme? cs = none) :
    Scans pos cs [] (some pos)
  | skip {pos : Position} {text rest : List CodePoint} {ts : List Token} {stuck : Option Position}
    (h : lexeme? (text ++ rest) = some ⟨none, text, rest⟩)
    (hrest : Scans (pos.advanceAll text) rest ts stuck) : Scans pos (text ++ rest) ts stuck
  | token {pos : Position} {kind : Kind} {text rest : List CodePoint} {ts : List Token}
    {stuck : Option Position} (h : lexeme? (text ++ rest) = some ⟨some kind, text, rest⟩)
    (hrest : Scans (pos.advanceAll text) rest ts stuck) :
    Scans pos (text ++ rest) (⟨kind, ⟨text⟩, pos, pos.advanceAll text⟩ :: ts) stuck

theorem scans_scanFrom (pos : Position) (cs : List CodePoint) :
    Scans pos cs (scanFrom pos cs).tokens (scanFrom pos cs).stuck := by
  induction hn : cs.length using Nat.strong_induction_on generalizing pos cs with
  | h n ih =>
    cases hl : lexeme? cs with
    | none =>
      have hscan : scanFrom pos cs = ⟨[], if cs.isEmpty then none else some pos⟩ := by
        rw [scanFrom]
        split
        · rfl
        · rename_i hsome
          rw [hl] at hsome
          cases hsome
      rw [hscan]
      cases cs with
      | nil => exact .done
      | cons c cs => exact .stuck (by simp) hl
    | some l =>
      obtain ⟨kind, text, rest⟩ := l
      obtain rfl := lexeme?_append hl
      have hrest := ih rest.length (hn ▸ lexeme?_rest_length hl) (pos.advanceAll text) rest rfl
      cases kind with
      | none =>
        rw [scanFrom_of_skipped hl]
        exact .skip hl hrest
      | some kind =>
        rw [scanFrom_of_kind hl]
        exact .token hl hrest

namespace Scans

variable {pos : Position} {cs : List CodePoint} {ts us pre post : List Token}
  {stuck : Option Position} {t : Token}

theorem scanFrom_eq (h : Scans pos cs ts stuck) : scanFrom pos cs = ⟨ts, stuck⟩ := by
  induction h with
  | done => exact scanFrom_nil _
  | stuck hcs h =>
    rw [scanFrom]
    split
    · rw [if_neg (by simpa using hcs)]
    · rename_i hsome
      rw [h] at hsome
      cases hsome
  | skip h hrest ih => rw [scanFrom_of_skipped h, ih]
  | token h hrest ih => rw [scanFrom_of_kind h, ih]

/-- Scanning finds the same words wherever the text begins. -/
theorem shift (h : Scans pos cs ts none) (pos' : Position) :
    ∃ ts', Scans pos' cs ts' none ∧ ts'.map Token.word = ts.map Token.word := by
  generalize hstuck : (none : Option Position) = stuck at h
  induction h generalizing pos' with
  | done => exact ⟨[], .done, rfl⟩
  | stuck hcs h => cases hstuck
  | @skip pos text rest ts stuck h hrest ih =>
    obtain ⟨ts', hts', hwords⟩ := ih (pos'.advanceAll text) hstuck
    exact ⟨ts', .skip h hts', hwords⟩
  | @token pos kind text rest ts stuck h hrest ih =>
    obtain ⟨ts', hts', hwords⟩ := ih (pos'.advanceAll text) hstuck
    exact ⟨_, .token h hts', congrArg (List.cons _) hwords⟩

/-- Tokens follow one another and are not empty. -/
theorem ordered (h : Scans pos cs ts stuck) :
    ts.Pairwise (fun s t => s.stop.place ≤ t.start.place) ∧
      ∀ t ∈ ts, pos.place ≤ t.start.place ∧ t.start.place < t.stop.place := by
  induction h with
  | done => simp
  | stuck hcs h => simp
  | @skip pos text rest ts stuck h hrest ih =>
    refine ⟨ih.1, ?_⟩
    intro t ht
    exact ⟨(pos.place_le_advanceAll text).trans (ih.2 t ht).1, (ih.2 t ht).2⟩
  | @token pos kind text rest ts stuck h hrest ih =>
    refine ⟨List.pairwise_cons.2 ⟨fun t ht => (ih.2 t ht).1, ih.1⟩, ?_⟩
    intro t ht
    rcases List.mem_cons.1 ht with rfl | ht
    · exact ⟨le_refl _, pos.place_lt_advanceAll (lexeme?_text_ne_nil h)⟩
    · exact ⟨(pos.place_le_advanceAll text).trans (ih.2 t ht).1, (ih.2 t ht).2⟩

/-- Scanning that begins at a token finds it and those after it. -/
theorem drop (h : Scans pos cs (pre ++ t :: post) stuck) :
    ∃ x y, cs = x ++ y ∧ t.start = pos.advanceAll x ∧ Scans t.start y (t :: post) stuck := by
  generalize hts : pre ++ t :: post = ts at h
  induction h generalizing pre with
  | done => simp at hts
  | stuck hcs h => simp at hts
  | @skip pos text rest ts stuck h hrest ih =>
    obtain ⟨x, y, rfl, hstart, hscans⟩ := ih hts
    exact ⟨text ++ x, y, (List.append_assoc _ _ _).symm,
      by rw [hstart, Position.advanceAll_append], hscans⟩
  | @token pos kind text rest ts stuck h hrest ih =>
    cases pre with
    | nil =>
      obtain ⟨rfl, rfl⟩ := List.cons.inj hts
      exact ⟨[], text ++ rest, rfl, rfl, .token h hrest⟩
    | cons s pre =>
      obtain ⟨x, y, rfl, hstart, hscans⟩ := ih (List.cons.inj hts).2
      exact ⟨text ++ x, y, (List.append_assoc _ _ _).symm,
        by rw [hstart, Position.advanceAll_append], hscans⟩

/-- Scanning a text that is cut after a token finds the tokens up to it. -/
theorem take (h : Scans pos cs (us ++ post) stuck) (ht : us.getLast? = some t) :
    ∃ y z, cs = y ++ z ∧ t.stop = pos.advanceAll y ∧ Scans pos y us none := by
  generalize hts : us ++ post = ts at h
  induction h generalizing us with
  | done =>
    obtain ⟨rfl, -⟩ := List.append_eq_nil_iff.1 hts
    cases ht
  | stuck hcs h =>
    obtain ⟨rfl, -⟩ := List.append_eq_nil_iff.1 hts
    cases ht
  | @skip pos text rest ts stuck h hrest ih =>
    obtain ⟨y, z, rfl, hstop, hscans⟩ := ih ht hts
    exact ⟨text ++ y, z, (List.append_assoc _ _ _).symm,
      by rw [hstop, Position.advanceAll_append], .skip (lexeme?_cut h) hscans⟩
  | @token pos kind text rest ts stuck h hrest ih =>
    cases us with
    | nil => cases ht
    | cons s us =>
      obtain ⟨rfl, htail⟩ := List.cons.inj hts
      cases us with
      | nil =>
        -- the token is the last one, and nothing is left after it
        obtain rfl := Option.some.inj ht
        have hcut : lexeme? (text ++ []) = some ⟨some kind, text, []⟩ := lexeme?_cut h
        refine ⟨text ++ [], rest, by simp, by simp, .token hcut .done⟩
      | cons s' us =>
        have hlast : (s' :: us).getLast? = some t := ht
        obtain ⟨y, z, rfl, hstop, hscans⟩ := ih hlast htail
        exact ⟨text ++ y, z, (List.append_assoc _ _ _).symm,
          by rw [hstop, Position.advanceAll_append], .token (lexeme?_cut h) hscans⟩

/-- A run of tokens is found again in the characters from the start of its first to
    the stop of its last. -/
theorem segment {a b : Token} (h : Scans pos cs (pre ++ us ++ post) stuck)
    (ha : us.head? = some a) (hb : us.getLast? = some b) :
    ∃ x y z, cs = x ++ (y ++ z) ∧ a.start = pos.advanceAll x ∧
      b.stop = pos.advanceAll (x ++ y) ∧ Scans a.start y us none := by
  obtain ⟨us', rfl⟩ := List.head?_eq_some_iff.1 ha
  rw [List.append_assoc, List.cons_append] at h
  obtain ⟨x, rest, rfl, hstart, hscans⟩ := h.drop
  rw [← List.cons_append] at hscans
  obtain ⟨y, z, rfl, hstop, hscans⟩ := hscans.take hb
  exact ⟨x, y, z, rfl, hstart, by rw [hstop, hstart, Position.advanceAll_append], hscans⟩

end Scans

/-- A run of tokens of a text is what scanning finds in the excerpt between the places
    of its ends. -/
theorem scan_excerpt {text : Text} {us pre post : List Token} {a b : Token}
    (h : (scan text).tokens = pre ++ us ++ post) (ha : us.head? = some a)
    (hb : us.getLast? = some b) :
    ∃ ts, scan ⟨excerpt text.points a.start.place b.stop.place⟩ = ⟨ts, none⟩ ∧
      ts.map Token.word = us.map Token.word := by
  have hscans := scans_scanFrom {} text.points
  rw [← scan, h] at hscans
  obtain ⟨x, y, z, hcs, hstart, hstop, hus⟩ := hscans.segment ha hb
  rw [hcs, hstart, hstop, place_advanceAll, place_advanceAll, excerpt_append]
  obtain ⟨ts, hts, hwords⟩ := hus.shift {}
  exact ⟨ts, hts.scanFrom_eq, hwords⟩

end Sendability.Source
