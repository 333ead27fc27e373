/-
  How deep documents are nested.

  Reading goes down one level for every array or object within another, and fails
  where no level is left. Apart from that the number of levels does not matter:
  what is not too deep is read alike with more levels (`parse_of_le`), a text with
  no more opening characters than levels is not too deep (`parse_shallow`), and
  what was read has no more levels than there were (`nesting_le_of_parse`). Nor
  does the bound on the size of a document ever decide (`readValue_fuel`).

  The readers are mutually recursive, so each fact is one induction on that bound
  with a part for values, for items and for members. All rest on this: a reader
  leaves a suffix of the text that it was given.
-/

import Sendability.Json.Reader
import Sendability.Proofs.FlowGraph

namespace Sendability.Json

variable {levels levels' fuel fuel' : Nat} {k k' : Cursor} {cs rest : List Char} {v : Json}

-- ============================================================================
-- Readers go forward
-- ============================================================================

theorem Cursor.skip_suffix (k : Cursor) : k.skip.rest <:+ k.rest := List.dropWhile_suffix isBlank

theorem Cursor.advance_suffix (k : Cursor) (n : Nat) : (k.advance n).rest <:+ k.rest :=
  List.drop_suffix n k.rest

/-- Behind an opening character there is less of the text. -/
theorem Cursor.behind_suffix_drop (k : Cursor) : k.behind.rest <:+ k.rest.drop 1 :=
  (k.advance 1).skip_suffix

theorem Cursor.behind_suffix (k : Cursor) : k.behind.rest <:+ k.rest :=
  k.behind_suffix_drop.trans (List.drop_suffix 1 _)

/-- A text in quotes is read from the front. -/
theorem readString_suffix {start pos : Nat} {s : List CodePoint}
    (h : readString start pos cs = .ok (s, k)) : k.rest <:+ cs := by
  fun_induction readString start pos cs generalizing s k with
  | case1 | case3 | case4 | case5 | case7 | case8 | case10 | case11 => cases h
  | case2 pos cs =>
    cases h
    exact List.suffix_cons _ cs
  | case6 pos cs n used _ s k hrest _ ih =>
    cases h
    exact ((ih hrest).trans (List.drop_suffix used cs)).trans
      ((List.suffix_cons _ cs).trans (List.suffix_cons _ _))
  | case9 pos c cs _ n _ s k hrest _ ih =>
    cases h
    exact (ih hrest).trans ((List.suffix_cons c cs).trans (List.suffix_cons _ _))
  | case12 pos c cs _ _ _ s k hrest ih =>
    cases h
    exact (ih hrest).trans (List.suffix_cons c cs)

theorem wholePart_suffix {ds : List Char} (h : wholePart cs = some (ds, rest)) : rest <:+ cs := by
  unfold wholePart at h
  split at h
  · rename_i c cs
    split at h
    · cases h
      exact List.suffix_cons _ _
    · split at h
      · cases h
        exact (List.dropWhile_suffix _).trans (List.suffix_cons c cs)
      · cases h
  · cases h

theorem fraction_suffix {ds : List Char} (h : fraction cs = some (ds, rest)) : rest <:+ cs := by
  unfold fraction at h
  split at h
  · rename_i c cs
    split at h
    · cases h
      exact (List.dropWhile_suffix _).trans ((List.suffix_cons c cs).trans (List.suffix_cons _ _))
    · cases h
  · cases h

theorem exponent_suffix {sign e : Int} {used n : Nat}
    (h : exponent sign used cs = some (e, n, rest)) : rest <:+ cs := by
  unfold exponent at h
  dsimp only at h
  split at h
  · cases h
  · cases h
    exact List.dropWhile_suffix _

theorem exponent?_suffix {e : Int} {n : Nat} (h : exponent? cs = some (e, n, rest)) :
    rest <:+ cs := by
  unfold exponent? at h
  split at h
  · rename_i c cs
    split at h
    · split at h
      · exact (exponent_suffix h).trans ((List.suffix_cons _ _).trans (List.suffix_cons _ _))
      · exact (exponent_suffix h).trans ((List.suffix_cons _ _).trans (List.suffix_cons _ _))
      · exact (exponent_suffix h).trans (List.suffix_cons c cs)
    · cases h
  · cases h

-- ============================================================================
-- Documents without others in them
-- ============================================================================

/-- Reading did not come upon an array or object that is too deep. -/
def Shallow {α : Type} (r : Except Fault α) : Prop := ∀ c, r ≠ .error (.tooDeep c)

theorem shallow_ok {α : Type} (a : α) : Shallow (.ok a : Except Fault α) := nofun

theorem shallow_invalid {α : Type} (p : Problem) (pos : Nat) :
    Shallow (.error (.invalid p pos) : Except Fault α) := nofun

/-- Two steps are not too deep if neither is. -/
theorem Shallow.bind {α β : Type} {r : Except Fault α} {g : α → Except Fault β}
    (h : Shallow r) (hg : ∀ a, r = .ok a → Shallow (g a)) : Shallow (r >>= g) := by
  cases r with
  | ok a => exact hg a rfl
  | error f => exact fun c hc => h c (congrArg Except.error (Except.error.inj hc))

theorem Shallow.of_error {α β : Type} {r : Except Fault α} {f : Fault} (h : Shallow r)
    (hr : r = .error f) : Shallow (.error f : Except Fault β) := by
  intro c hc
  cases hc
  exact h c hr

/-- An escape has no levels. -/
theorem shallow_unicodeEscape (pos : Nat) (cs : List Char) : Shallow (unicodeEscape pos cs) := by
  unfold unicodeEscape
  split
  · split
    · exact shallow_invalid _ _
    · split
      · split
        · exact shallow_invalid _ _
        · split <;> exact shallow_ok _
      · exact shallow_ok _
  · exact shallow_invalid _ _

/-- A text has no levels. -/
theorem shallow_readString (start pos : Nat) (cs : List Char) :
    Shallow (readString start pos cs) := by
  fun_induction readString start pos cs with
  | case1 | case3 | case7 | case10 => exact shallow_invalid _ _
  | case2 | case6 | case9 | case12 => exact shallow_ok _
  | case4 pos cs f hescape => exact (shallow_unicodeEscape _ _).of_error hescape
  | case5 pos cs n used _ f hrest _ ih => exact ih.of_error hrest
  | case8 pos c cs _ n _ f hrest _ ih => exact ih.of_error hrest
  | case11 pos c cs _ _ _ f hrest ih => exact ih.of_error hrest

/-- A reader of some text comes to a value without levels below it, or to a fault
    other than of depth. -/
structure Flat (cs : List Char) (r : Except Fault (Json × Cursor)) : Prop where
  shallow : Shallow r
  nesting : ∀ {v k}, r = .ok (v, k) → v.nesting = 0
  suffix : ∀ {v k}, r = .ok (v, k) → k.rest <:+ cs

theorem flat_ok (h : k.rest <:+ cs) (hv : v.nesting = 0) : Flat cs (.ok (v, k)) := by
  refine ⟨shallow_ok _, ?_, ?_⟩
  · intro v k h
    cases h
    exact hv
  · intro v k h
    cases h
    assumption

/-- A number without its sign is a leaf. -/
theorem flat_readUnsigned (k : Cursor) (negative : Bool) (pos : Nat) (cs : List Char) :
    Flat cs (readUnsigned k negative pos cs) := by
  unfold readUnsigned
  cases hwhole : wholePart cs with
  | none => exact ⟨shallow_invalid _ _, nofun, nofun⟩
  | some w =>
    obtain ⟨whole, rest⟩ := w
    have hrest := wholePart_suffix hwhole
    cases hfrac : fraction rest with
    | none =>
      cases hexp : exponent? rest with
      | none =>
        simp only [hfrac, hexp]
        split
        · split
          · exact ⟨nofun, nofun, nofun⟩
          · exact flat_ok hrest rfl
        · exact flat_ok hrest rfl
      | some e =>
        simp only [hfrac, hexp]
        exact flat_ok ((exponent?_suffix hexp).trans hrest) rfl
    | some d =>
      cases hexp : exponent? d.2 with
      | none =>
        simp only [hfrac, hexp]
        exact flat_ok ((fraction_suffix hfrac).trans hrest) rfl
      | some e =>
        simp only [hfrac, hexp]
        exact flat_ok (((exponent?_suffix hexp).trans (fraction_suffix hfrac)).trans hrest) rfl

theorem flat_readNumber (k : Cursor) : Flat k.rest (readNumber k) := by
  unfold readNumber
  split
  · rename_i cs hk
    obtain ⟨hshallow, hnesting, hsuffix⟩ := flat_readUnsigned k true (k.pos + 1) cs
    rw [hk]
    exact ⟨hshallow, hnesting, fun h => (hsuffix h).trans (List.suffix_cons _ cs)⟩
  · exact flat_readUnsigned k false k.pos k.rest

theorem nesting_of_word {n : Nat} (h : word? cs = some (v, n)) : v.nesting = 0 := by
  have hwords : ∀ w ∈ words, w.2.nesting = 0 := by decide
  unfold word? at h
  obtain ⟨w, hw, hv⟩ := Option.map_eq_some_iff.1 h
  cases hv
  exact hwords w (List.mem_of_find?_eq_some hw)

/-- Whatever starts with no opening character is a leaf. -/
theorem flat_readLeaf (k : Cursor) : Flat k.rest (readLeaf k) := by
  unfold readLeaf
  split
  · rename_i cs hk
    refine ⟨(shallow_readString _ _ _).bind fun _ _ => shallow_ok _, ?_, ?_⟩
    · intro v k' h
      obtain ⟨r, -, h⟩ := ok_of_bind h
      cases h
      rfl
    · intro v k' h
      obtain ⟨r, hr, h⟩ := ok_of_bind h
      cases h
      rw [hk]
      exact (readString_suffix hr).trans (List.suffix_cons _ cs)
  · split
    · rename_i hword
      exact flat_ok (k.advance_suffix _) (nesting_of_word hword)
    · exact flat_readNumber k

theorem shallow_readKey (k : Cursor) : Shallow (readKey k) := by
  unfold readKey
  split
  · refine (shallow_readString _ _ _).bind fun r _ => ?_
    dsimp only
    split
    · exact shallow_ok _
    · exact shallow_invalid _ _
  · exact shallow_invalid _ _

/-- A key is read from the front, with the colon behind it. -/
theorem readKey_suffix {key : Text} (h : readKey k = .ok (key, k')) : k'.rest <:+ k.rest := by
  unfold readKey at h
  split at h
  · rename_i cs hk
    obtain ⟨r, hr, h⟩ := ok_of_bind h
    dsimp only at h
    split at h
    · cases h
      have hskip := r.2.skip.behind_suffix.trans r.2.skip_suffix
      rw [hk]
      exact (hskip.trans (readString_suffix hr)).trans (List.suffix_cons _ cs)
    · cases h
  · cases h

-- ============================================================================
-- What was read
-- ============================================================================

theorem Cursor.sees_of_container {c : Container} (h : k.container? = some c) :
    k.sees c.opening = true := by
  simpa using List.find?_some h

theorem Cursor.rest_of_sees {c : Char} (h : k.sees c = true) : k.rest = c :: k.rest.drop 1 := by
  rw [Cursor.sees, decide_eq_true_iff] at h
  cases hk : k.rest with
  | nil =>
    rw [hk] at h
    cases h
  | cons a cs =>
    rw [hk] at h
    cases h
    rfl

/-- A leaf takes no level. -/
theorem readValue_leaf (h : k.container? = none) (levels fuel : Nat) :
    readValue levels (fuel + 1) k = readLeaf k := by
  unfold readValue
  simp only [h]

/-- Without a level left nothing can be opened. -/
theorem readValue_zero {c : Container} (h : k.container? = some c) (fuel : Nat) :
    readValue 0 (fuel + 1) k = .error (.tooDeep c) := by
  unfold readValue
  simp only [h]

/-- An array takes one level, and its items have the rest. -/
theorem readValue_array (h : k.container? = some .array) (levels fuel : Nat) :
    readValue (levels + 1) (fuel + 1) k =
      if k.behind.sees ']' then .ok (.arr [], k.behind.advance 1)
      else readItems levels fuel k.behind >>= fun r => .ok (.arr r.1, r.2) := by
  unfold readValue
  simp only [h]
  rfl

/-- An object takes one level, and its members have the rest. Of members with one key
    the last counts. -/
theorem readValue_object (h : k.container? = some .object) (levels fuel : Nat) :
    readValue (levels + 1) (fuel + 1) k =
      if k.behind.sees '\x7d' then .ok (.obj [], k.behind.advance 1)
      else readMembers levels fuel k.behind >>= fun r =>
        .ok (.obj (Table.ofList r.1).entries, r.2) := by
  unfold readValue
  simp only [h]
  rfl

/-- An object has one level more than the deepest of its members. -/
theorem nestingMembers_le_iff {ms : List (Text × Json)} {n : Nat} :
    nestingMembers ms ≤ n ↔ ∀ m ∈ ms, m.2.nesting < n := by
  induction ms with
  | nil => simp [nestingMembers]
  | cons m ms ih =>
    rw [nestingMembers, Nat.max_le, List.forall_mem_cons, ih]
    rfl

/-- The value of a member has fewer levels than the document. -/
theorem nesting_lt_of_member? {doc : Json} {key : Text} (h : doc.member? key = some v) :
    v.nesting < doc.nesting := by
  cases doc with
  | obj members =>
    obtain ⟨m, hm, rfl⟩ := Option.map_eq_some_iff.1 h
    exact nestingMembers_le_iff.1 (Nat.le_refl _) m (List.mem_of_find?_eq_some hm)
  | null | bool | int | float | str | arr => cases h

/-- Members that share a key are replaced, and none are made up. -/
theorem mem_of_mem_ofList {ms : List (Text × Json)} {m : Text × Json}
    (h : m ∈ (Table.ofList ms).entries) : m ∈ ms := by
  -- the table built so far holds some of the members before
  have hstart : ∀ (ms : List (Text × Json)) (t : Table Text Json),
      m ∈ (ms.foldl (fun t p => t.insert p.1 p.2) t).entries → m ∈ t.entries ∨ m ∈ ms := by
    intro ms
    induction ms with
    | nil => exact fun t h => .inl h
    | cons p ms ih =>
      intro t h
      rcases ih (t.insert p.1 p.2) h with h | h
      · obtain ⟨key, v⟩ := m
        rw [Table.mem_entries_iff, Table.get?_insert] at h
        split at h
        · rename_i hkey
          cases h
          cases hkey
          exact .inr (by simp)
        · exact .inl ((Table.mem_entries_iff _ _ _).2 h)
      · exact .inr (List.mem_cons_of_mem _ h)
  exact (hstart ms Table.empty h).resolve_left (by simp [Table.empty])

/-- What was read has no more levels than there were, and a suffix of the text is
    left. -/
theorem read_ok (fuel : Nat) :
    (∀ {levels k v k'}, readValue levels fuel k = .ok (v, k') →
      v.nesting ≤ levels ∧ k'.rest <:+ k.rest) ∧
    (∀ {levels k vs k'}, readItems levels fuel k = .ok (vs, k') →
      nestingItems vs ≤ levels + 1 ∧ k'.rest <:+ k.rest) ∧
    ∀ {levels k ms k'}, readMembers levels fuel k = .ok (ms, k') →
      nestingMembers ms ≤ levels + 1 ∧ k'.rest <:+ k.rest := by
  induction fuel with
  | zero => exact ⟨nofun, nofun, nofun⟩
  | succ fuel ih =>
    obtain ⟨hvalue, hitems, hmembers⟩ := ih
    refine ⟨?_, ?_, ?_⟩
    · intro levels k v k' h
      have hbehind := k.behind_suffix
      cases hc : k.container? with
      | none =>
        rw [readValue_leaf hc] at h
        exact ⟨by simp [(flat_readLeaf k).nesting h], (flat_readLeaf k).suffix h⟩
      | some c =>
        cases levels with
        | zero =>
          rw [readValue_zero hc] at h
          cases h
        | succ levels =>
          cases c with
          | array =>
            rw [readValue_array hc] at h
            split at h
            · cases h
              exact ⟨Nat.zero_le _, (k.behind.advance_suffix 1).trans hbehind⟩
            · obtain ⟨r, hr, h⟩ := ok_of_bind h
              cases h
              obtain ⟨hnesting, hsuffix⟩ := hitems hr
              exact ⟨hnesting, hsuffix.trans hbehind⟩
          | object =>
            rw [readValue_object hc] at h
            split at h
            · cases h
              exact ⟨Nat.zero_le _, (k.behind.advance_suffix 1).trans hbehind⟩
            · obtain ⟨r, hr, h⟩ := ok_of_bind h
              cases h
              obtain ⟨hnesting, hsuffix⟩ := hmembers hr
              refine ⟨?_, hsuffix.trans hbehind⟩
              rw [nesting, nestingMembers_le_iff]
              exact fun m hm => nestingMembers_le_iff.1 hnesting m (mem_of_mem_ofList hm)
    · intro levels k vs k' h
      rw [readItems] at h
      obtain ⟨⟨v, k₁⟩, hv, h⟩ := ok_of_bind h
      obtain ⟨hnesting, hsuffix⟩ := hvalue hv
      have hskip : k₁.skip.rest <:+ k.rest := k₁.skip_suffix.trans hsuffix
      dsimp only at h
      split at h
      · cases h
        exact ⟨by simp [nestingItems, hnesting], (k₁.skip.advance_suffix 1).trans hskip⟩
      · split at h
        · obtain ⟨r, hr, h⟩ := ok_of_bind h
          cases h
          obtain ⟨hnesting', hsuffix'⟩ := hitems hr
          refine ⟨Nat.max_le.2 ⟨Nat.succ_le_succ hnesting, hnesting'⟩, ?_⟩
          exact (hsuffix'.trans k₁.skip.behind_suffix).trans hskip
        · cases h
    · intro levels k ms k' h
      rw [readMembers] at h
      obtain ⟨⟨key, k₀⟩, hkey, h⟩ := ok_of_bind h
      obtain ⟨⟨v, k₁⟩, hv, h⟩ := ok_of_bind h
      obtain ⟨hnesting, hsuffix⟩ := hvalue hv
      have hskip : k₁.skip.rest <:+ k.rest :=
        (k₁.skip_suffix.trans hsuffix).trans (readKey_suffix hkey)
      dsimp only at h
      split at h
      · cases h
        exact ⟨by simp [nestingMembers, hnesting], (k₁.skip.advance_suffix 1).trans hskip⟩
      · split at h
        · obtain ⟨r, hr, h⟩ := ok_of_bind h
          cases h
          obtain ⟨hnesting', hsuffix'⟩ := hmembers hr
          refine ⟨Nat.max_le.2 ⟨Nat.succ_le_succ hnesting, hnesting'⟩, ?_⟩
          exact (hsuffix'.trans k₁.skip.behind_suffix).trans hskip
        · cases h

-- ============================================================================
-- More room makes no difference
-- ============================================================================

/-- Two readings come to the same, unless the first one had fewer levels and they
    were not enough. -/
def Agree {α : Type} (fewer : Prop) (r r' : Except Fault α) : Prop := r = r' ∨ fewer ∧ ¬ Shallow r

/-- Results that agree go on to agree. -/
theorem Agree.bind {α β : Type} {fewer : Prop} {r r' : Except Fault α}
    {g g' : α → Except Fault β} (h : Agree fewer r r')
    (hg : ∀ a, r = .ok a → Agree fewer (g a) (g' a)) : Agree fewer (r >>= g) (r' >>= g') := by
  rcases h with rfl | ⟨hfewer, hdeep⟩
  · cases r with
    | ok a => exact hg a rfl
    | error f => exact .inl rfl
  · refine .inr ⟨hfewer, fun hshallow => hdeep fun c hc => ?_⟩
    rw [hc] at hshallow
    exact hshallow c rfl

theorem Cursor.length_behind {c : Char} (h : k.sees c = true) :
    k.behind.rest.length < k.rest.length := by
  have hle := k.behind_suffix_drop.length_le
  rw [Cursor.rest_of_sees h, List.length_cons]
  omega

/-- Readers with bounds that are large enough agree, whatever the bounds are, and with
    more levels they agree where the fewer ones suffice. -/
theorem read_agree {fewer : Prop} (fuel : Nat) :
    (∀ {levels levels' fuel' k}, levels ≤ levels' → (levels = levels' ∨ fewer) →
      2 * k.rest.length < fuel → 2 * k.rest.length < fuel' →
      Agree fewer (readValue levels fuel k) (readValue levels' fuel' k)) ∧
    (∀ {levels levels' fuel' k}, levels ≤ levels' → (levels = levels' ∨ fewer) →
      2 * k.rest.length + 1 < fuel → 2 * k.rest.length + 1 < fuel' →
      Agree fewer (readItems levels fuel k) (readItems levels' fuel' k)) ∧
    ∀ {levels levels' fuel' k}, levels ≤ levels' → (levels = levels' ∨ fewer) →
      2 * k.rest.length + 1 < fuel → 2 * k.rest.length + 1 < fuel' →
      Agree fewer (readMembers levels fuel k) (readMembers levels' fuel' k) := by
  induction fuel with
  | zero => exact ⟨nofun, nofun, nofun⟩
  | succ fuel ih =>
    obtain ⟨hvalue, hitems, hmembers⟩ := ih
    refine ⟨?_, ?_, ?_⟩
    · intro levels levels' fuel' k hle hfewer hfuel hfuel'
      obtain ⟨fuel', rfl⟩ := Nat.exists_eq_succ_of_ne_zero (Nat.ne_zero_of_lt hfuel')
      cases hc : k.container? with
      | none =>
        rw [readValue_leaf hc, readValue_leaf hc]
        exact .inl rfl
      | some c =>
        have hbehind := Cursor.length_behind (Cursor.sees_of_container hc)
        cases levels with
        | zero =>
          rw [readValue_zero hc]
          rcases hfewer with rfl | hfewer
          · rw [readValue_zero hc]
            exact .inl rfl
          · exact .inr ⟨hfewer, fun hshallow => hshallow c rfl⟩
        | succ levels =>
          obtain ⟨levels', rfl⟩ := Nat.exists_eq_succ_of_ne_zero (Nat.ne_zero_of_lt hle)
          have hle := Nat.le_of_succ_le_succ hle
          have hfewer := hfewer.imp_left Nat.succ.inj
          cases c with
          | array =>
            rw [readValue_array hc, readValue_array hc]
            split
            · exact .inl rfl
            · exact (hitems hle hfewer (by omega) (by omega)).bind fun r _ => .inl rfl
          | object =>
            rw [readValue_object hc, readValue_object hc]
            split
            · exact .inl rfl
            · exact (hmembers hle hfewer (by omega) (by omega)).bind fun r _ => .inl rfl
    · intro levels levels' fuel' k hle hfewer hfuel hfuel'
      obtain ⟨fuel', rfl⟩ := Nat.exists_eq_succ_of_ne_zero (Nat.ne_zero_of_lt hfuel')
      rw [readItems, readItems]
      refine (hvalue hle hfewer (by omega) (by omega)).bind fun r hr => ?_
      obtain ⟨v, k₁⟩ := r
      have hskip := (k₁.skip_suffix.trans ((read_ok fuel).1 hr).2).length_le
      dsimp only
      split
      · exact .inl rfl
      · split
        · rename_i hcomma
          have hbehind := Cursor.length_behind hcomma
          exact (hitems hle hfewer (by omega) (by omega)).bind fun r _ => .inl rfl
        · exact .inl rfl
    · intro levels levels' fuel' k hle hfewer hfuel hfuel'
      obtain ⟨fuel', rfl⟩ := Nat.exists_eq_succ_of_ne_zero (Nat.ne_zero_of_lt hfuel')
      rw [readMembers, readMembers]
      refine Agree.bind (.inl rfl) fun r hkey => ?_
      obtain ⟨key, k₀⟩ := r
      have hkey := (readKey_suffix hkey).length_le
      dsimp only
      refine (hvalue hle hfewer (by omega) (by omega)).bind fun r hr => ?_
      obtain ⟨v, k₁⟩ := r
      have hskip := (k₁.skip_suffix.trans ((read_ok fuel).1 hr).2).length_le
      dsimp only
      split
      · exact .inl rfl
      · split
        · rename_i hcomma
          have hbehind := Cursor.length_behind hcomma
          exact (hmembers hle hfewer (by omega) (by omega)).bind fun r _ => .inl rfl
        · exact .inl rfl

/-- The bound on the size of a document never decides: it is greater than what can
    be used up. -/
theorem readValue_fuel (h : 2 * k.rest.length < fuel) (h' : 2 * k.rest.length < fuel') :
    readValue levels fuel k = readValue levels fuel' k := by
  have hagree : Agree False (readValue levels fuel k) (readValue levels fuel' k) :=
    (read_agree fuel).1 (Nat.le_refl _) (.inl rfl) h h'
  exact hagree.resolve_right fun hfalse => hfalse.1

-- ============================================================================
-- Enough levels
-- ============================================================================

/-- Whether a character stands in front of what a container holds. -/
def isOpening (c : Char) : Bool := c = Container.array.opening || c = Container.object.opening

/-- Every level that is taken uses up an opening character. -/
theorem countP_behind {c : Container} (h : k.sees c.opening = true) :
    k.behind.rest.countP isOpening < k.rest.countP isOpening := by
  have hle := k.behind_suffix_drop.sublist.countP_le (p := isOpening)
  have hopening : isOpening c.opening = true := by cases c <;> rfl
  rw [Cursor.rest_of_sees h, List.countP_cons_of_pos hopening]
  omega

/-- As many levels as there are opening characters suffice. -/
theorem read_shallow (fuel : Nat) :
    (∀ {levels k}, k.rest.countP isOpening ≤ levels → Shallow (readValue levels fuel k)) ∧
    (∀ {levels k}, k.rest.countP isOpening ≤ levels → Shallow (readItems levels fuel k)) ∧
    ∀ {levels k}, k.rest.countP isOpening ≤ levels → Shallow (readMembers levels fuel k) := by
  induction fuel with
  | zero => exact ⟨fun _ => shallow_invalid _ _, fun _ => shallow_invalid _ _,
      fun _ => shallow_invalid _ _⟩
  | succ fuel ih =>
    obtain ⟨hvalue, hitems, hmembers⟩ := ih
    -- behind a value there are no more containers than before it
    have hafter : ∀ {levels k v k'}, readValue levels fuel k = .ok (v, k') →
        k'.skip.behind.rest.countP isOpening ≤ k.rest.countP isOpening := by
      intro levels k v k' h
      have hsuffix := k'.skip.behind_suffix.trans (k'.skip_suffix.trans ((read_ok fuel).1 h).2)
      exact hsuffix.sublist.countP_le
    refine ⟨?_, ?_, ?_⟩
    · intro levels k hcount
      cases hc : k.container? with
      | none =>
        rw [readValue_leaf hc]
        exact (flat_readLeaf k).shallow
      | some c =>
        have hbehind := countP_behind (Cursor.sees_of_container hc)
        cases levels with
        | zero => omega
        | succ levels =>
          cases c with
          | array =>
            rw [readValue_array hc]
            split
            · exact shallow_ok _
            · exact (hitems (by omega)).bind fun _ _ => shallow_ok _
          | object =>
            rw [readValue_object hc]
            split
            · exact shallow_ok _
            · exact (hmembers (by omega)).bind fun _ _ => shallow_ok _
    · intro levels k hcount
      rw [readItems]
      refine (hvalue hcount).bind fun r hr => ?_
      have hrest := hafter hr
      dsimp only
      split
      · exact shallow_ok _
      · split
        · exact (hitems (by omega)).bind fun _ _ => shallow_ok _
        · exact shallow_invalid _ _
    · intro levels k hcount
      rw [readMembers]
      refine (shallow_readKey k).bind fun r hkey => ?_
      have hkey := (readKey_suffix hkey).sublist.countP_le (p := isOpening)
      refine (hvalue (by omega)).bind fun r hr => ?_
      have hrest := hafter hr
      dsimp only
      split
      · exact shallow_ok _
      · split
        · exact (hmembers (by omega)).bind fun _ _ => shallow_ok _
        · exact shallow_invalid _ _

-- ============================================================================
-- Documents
-- ============================================================================

variable {doc : List Char}

theorem parse_eq (levels : Nat) (doc : List Char) : parse levels doc =
    if doc.head? = some '\ufeff' then .error (.invalid .byteOrderMark 0)
    else readValue levels (2 * doc.length + 1) (Cursor.skip ⟨0, doc⟩) >>= fun r =>
      if r.2.skip.rest.isEmpty then .ok r.1 else .error (.invalid .extraData r.2.skip.pos) := by
  unfold parse
  cases readValue levels (2 * doc.length + 1) (Cursor.skip ⟨0, doc⟩) with
  | error f => rfl
  | ok r => rfl

/-- What is not too deep is read alike with more levels. -/
theorem parse_of_le (hle : levels ≤ levels') (h : Shallow (parse levels doc)) :
    parse levels' doc = parse levels doc := by
  have hskip : (Cursor.skip ⟨0, doc⟩).rest.length ≤ doc.length :=
    (Cursor.skip_suffix ⟨0, doc⟩).length_le
  rw [parse_eq] at h ⊢
  rw [parse_eq]
  split
  · rfl
  · rename_i hmark
    rw [if_neg hmark] at h
    have hagree : Agree True (readValue levels (2 * doc.length + 1) (Cursor.skip ⟨0, doc⟩))
        (readValue levels' (2 * doc.length + 1) (Cursor.skip ⟨0, doc⟩)) :=
      (read_agree _).1 hle (.inr trivial) (by omega) (by omega)
    rcases hagree.bind fun r _ => .inl rfl with heq | ⟨-, hdeep⟩
    · exact heq.symm
    · exact absurd h hdeep

/-- A text with no more opening characters than levels is not too deep. -/
theorem parse_shallow (h : doc.countP isOpening ≤ levels) : Shallow (parse levels doc) := by
  rw [parse_eq]
  split
  · exact shallow_invalid _ _
  · refine ((read_shallow _).1 ?_).bind fun r _ => ?_
    · exact Nat.le_trans (Cursor.skip_suffix ⟨0, doc⟩).sublist.countP_le h
    · split
      · exact shallow_ok _
      · exact shallow_invalid _ _

/-- A document that was read has no more levels than there were to go down. -/
theorem nesting_le_of_parse (h : parse levels doc = .ok v) : v.nesting ≤ levels := by
  rw [parse_eq] at h
  split at h
  · cases h
  · obtain ⟨r, hr, h⟩ := ok_of_bind h
    split at h
    · cases h
      exact ((read_ok _).1 hr).1
    · cases h

end Sendability.Json
