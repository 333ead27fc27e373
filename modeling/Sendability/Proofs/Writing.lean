/-
  Writing programs down.

  A program is written as a list of words: keywords, marks, names and labels.
  `Spaced` says which texts have given words, any blanks standing between them,
  and `scan_spaced` that scanning finds the words again. It holds because a
  lexeme that is followed by a blank or by nothing ends where its word does, also
  when the word begins or continues a keyword.

  Not every program can be written. `Program.Expressible` says which can: all
  names are ones that can stand in a text, every value has the type that its
  written type name stands for, and what the text form leaves open has its default
  (the receiver of a call, the entry block).
-/

import Sendability.IR.Flow
import Sendability.Source.Program

namespace Sendability.Source

-- ============================================================================
-- Words
-- ============================================================================

/-- A token without its place. -/
structure Word where
  kind : Kind
  text : Text
  deriving DecidableEq, Inhabited

/-- The word of a token. -/
def Token.word (t : Token) : Word := ⟨t.kind, t.text⟩

namespace Word

/-- A keyword. -/
def keyword (k : Keyword) : Word := ⟨.keyword k, k.spelling⟩

/-- A punctuation mark. -/
def mark (m : Mark) : Word := ⟨.mark m, ⟨[m.char.toNat]⟩⟩

/-- A name. -/
def name (n : Name) : Word := ⟨.name, n⟩

/-- A label: the name of a block after its sigil. -/
def label (n : Name) : Word := ⟨.label, ⟨'@'.toNat :: n.points⟩⟩

end Word

/-- A text that can be a word: a letter or an underscore, and then also digits. -/
def IsWord (n : Name) : Prop :=
  n.points.head?.any isWordStart = true ∧ n.points.all isWordPart = true

/-- A word that is not reserved. -/
def IsName (n : Name) : Prop := IsWord n ∧ Keyword.ofWord? n = none

instance (n : Name) : Decidable (IsWord n) :=
  inferInstanceAs (Decidable (_ ∧ _))

instance (n : Name) : Decidable (IsName n) :=
  inferInstanceAs (Decidable (_ ∧ _))

/-- A word is spelled as its kind demands. -/
def Word.Spelled (w : Word) : Prop :=
  match w.kind with
  | .name => IsName w.text
  | .label => ∃ n, IsWord n ∧ w.text = ⟨'@'.toNat :: n.points⟩
  | .keyword k => w.text = k.spelling
  | .mark m => w.text = ⟨[m.char.toNat]⟩

namespace Word

@[simp] theorem spelled_keyword (k : Keyword) : (keyword k).Spelled := rfl

@[simp] theorem spelled_mark (m : Mark) : (mark m).Spelled := rfl

@[simp] theorem spelled_name {n : Name} : (name n).Spelled ↔ IsName n := Iff.rfl

theorem spelled_label {n : Name} (h : IsWord n) : (label n).Spelled := ⟨n, h, rfl⟩

end Word

/-- A text that has some words in order: there may be blanks before each and after
    the last, and there is at least one between two. -/
inductive Spaced : List Word → List CodePoint → Prop
  | nil {gap : List CodePoint} : (∀ c ∈ gap, isBlank c = true) → Spaced [] gap
  | cons {gap cs : List CodePoint} {w : Word} {ws : List Word} :
      (∀ c ∈ gap, isBlank c = true) → (∀ c ∈ cs.head?, isBlank c = true) → Spaced ws cs →
      Spaced (w :: ws) (gap ++ (w.text.points ++ cs))

/-- Some words, each after one space. -/
def spaceOut (ws : List Word) : Text := ⟨ws.flatMap fun w => ' '.toNat :: w.text.points⟩

theorem spaced_spaceOut (ws : List Word) : Spaced ws (spaceOut ws).points := by
  induction ws with
  | nil => exact .nil fun c hc => by cases hc
  | cons w ws ih =>
    have hnext : ∀ c ∈ (spaceOut ws).points.head?, isBlank c = true := by
      cases ws with
      | nil => simp [spaceOut]
      | cons v vs => simp [spaceOut, isBlank]
    have hgap : ∀ c ∈ [' '.toNat], isBlank c = true := by decide
    exact .cons hgap hnext ih

-- ============================================================================
-- Scanning words
-- ============================================================================

/-- Scanning goes on after blanks. -/
theorem scanFrom_of_skipped {pos : Position} {cs text rest : List CodePoint}
    (h : lexeme? cs = some ⟨none, text, rest⟩) :
    scanFrom pos cs = scanFrom (pos.advanceAll text) rest := by
  rw [scanFrom]
  split
  · rename_i hnone
    rw [h] at hnone
    cases hnone
  · rename_i l hl
    obtain rfl : (⟨none, text, rest⟩ : Lexeme) = l := Option.some.inj (h.symm.trans hl)
    rfl

/-- A lexeme of some kind becomes a token, and scanning goes on behind it. -/
theorem scanFrom_of_kind {pos : Position} {cs text rest : List CodePoint} {kind : Kind}
    (h : lexeme? cs = some ⟨some kind, text, rest⟩) :
    scanFrom pos cs =
      { scanFrom (pos.advanceAll text) rest with
        tokens := ⟨kind, ⟨text⟩, pos, pos.advanceAll text⟩ ::
          (scanFrom (pos.advanceAll text) rest).tokens } := by
  rw [scanFrom]
  split
  · rename_i hnone
    rw [h] at hnone
    cases hnone
  · rename_i l hl
    obtain rfl : (⟨some kind, text, rest⟩ : Lexeme) = l := Option.some.inj (h.symm.trans hl)
    rfl

theorem scanFrom_nil (pos : Position) : scanFrom pos [] = ⟨[], none⟩ := by
  rw [scanFrom]
  rfl

/-- Taking characters of a class stops at the first that is none. -/
theorem takeWhile_append_stop {p : CodePoint → Bool} {l rest : List CodePoint}
    (hl : ∀ c ∈ l, p c = true) (hrest : ∀ c ∈ rest.head?, p c = false) :
    (l ++ rest).takeWhile p = l ∧ (l ++ rest).dropWhile p = rest := by
  rw [List.takeWhile_append_of_pos hl, List.dropWhile_append_of_pos hl]
  cases rest with
  | nil => simp
  | cons c rest =>
    have hc := hrest c rfl
    simp [hc]

/-- Scanning skips the blanks before what is none. -/
theorem scanFrom_gap {gap cs : List CodePoint} (hgap : ∀ c ∈ gap, isBlank c = true)
    (hcs : ∀ c ∈ cs.head?, isBlank c = false) (pos : Position) :
    ∃ pos', scanFrom pos (gap ++ cs) = scanFrom pos' cs := by
  cases gap with
  | nil => exact ⟨pos, rfl⟩
  | cons c gap =>
    obtain ⟨-, hdrop⟩ := takeWhile_append_stop
      (fun d hd => hgap d (List.mem_cons_of_mem _ hd)) hcs
    have hlex : lexeme? (c :: gap ++ cs) =
        some ⟨none, c :: (gap ++ cs).takeWhile isBlank, cs⟩ := by
      rw [List.cons_append, lexeme?, if_pos (hgap c (by simp)), hdrop]
    exact ⟨_, scanFrom_of_skipped hlex⟩

theorem not_isWordPart_of_isBlank {c : CodePoint} (h : isBlank c = true) :
    isWordPart c = false := by
  simp only [isBlank, Bool.or_eq_true, decide_eq_true_eq] at h
  rcases h with (((rfl | rfl) | rfl) | rfl) | rfl <;> decide

/-- What starts a word starts no other lexeme. -/
theorem not_isBlank_of_isWordStart {c : CodePoint} (h : isWordStart c = true) :
    isBlank c = false ∧ c ≠ '#'.toNat ∧ c ≠ '/'.toNat := by
  have hne : ∀ d, isWordStart d = false → c ≠ d := by
    rintro d hd rfl
    rw [h] at hd
    cases hd
  refine ⟨?_, hne _ (by decide), hne _ (by decide)⟩
  cases hblank : isBlank c with
  | false => rfl
  | true =>
    have hpart := not_isWordPart_of_isBlank hblank
    rw [isWordPart, h] at hpart
    cases hpart

/-- A word before a blank or the end is read as a whole. -/
theorem lexeme?_word {n : Name} (h : IsWord n) {rest : List CodePoint}
    (hrest : ∀ c ∈ rest.head?, isBlank c = true) :
    lexeme? (n.points ++ rest) = some ⟨some (wordKind n.points), n.points, rest⟩ := by
  obtain ⟨hstart, hparts⟩ := h
  cases hn : n.points with
  | nil =>
    rw [hn] at hstart
    cases hstart
  | cons c cs =>
    rw [hn] at hstart hparts
    have hc : isWordStart c = true := hstart
    obtain ⟨hblank, hhash, hslash⟩ := not_isBlank_of_isWordStart hc
    rw [List.all_cons, Bool.and_eq_true, List.all_eq_true] at hparts
    obtain ⟨htake, hdrop⟩ := takeWhile_append_stop hparts.2
      fun d hd => not_isWordPart_of_isBlank (hrest d hd)
    rw [List.cons_append, lexeme?]
    simp only [hblank, hhash, hslash, hc, htake, hdrop, decide_false, Bool.false_and, Bool.or_self,
      Bool.false_eq_true, if_false, if_true]

/-- A label ends at a blank. -/
theorem lexeme?_label {n : Name} (h : IsWord n) {rest : List CodePoint}
    (hrest : ∀ c ∈ rest.head?, isBlank c = true) :
    lexeme? ('@'.toNat :: n.points ++ rest) =
      some ⟨some .label, '@'.toNat :: n.points, rest⟩ := by
  obtain ⟨hstart, hparts⟩ := h
  obtain ⟨htake, hdrop⟩ := takeWhile_append_stop (List.all_eq_true.1 hparts)
    fun d hd => not_isWordPart_of_isBlank (hrest d hd)
  have hhead : (n.points ++ rest).head?.any isWordStart = true := by
    cases hn : n.points with
    | nil =>
      rw [hn] at hstart
      cases hstart
    | cons c cs =>
      rw [hn] at hstart
      exact hstart
  rw [List.cons_append, lexeme?, htake, hdrop, hhead]
  rfl

theorem lexeme?_mark (m : Mark) (rest : List CodePoint) :
    lexeme? (m.char.toNat :: rest) = some ⟨some (.mark m), [m.char.toNat], rest⟩ := by
  cases m <;> rfl

/-- A keyword is a word, and reserved. -/
theorem isWord_spelling (k : Keyword) :
    IsWord k.spelling ∧ wordKind (k.spelling : Text).points = .keyword k := by
  cases k <;> decide

namespace Word

/-- A word before a blank or the end is read as what it is. -/
theorem Spelled.lexeme? {w : Word} (h : w.Spelled) {rest : List CodePoint}
    (hrest : ∀ c ∈ rest.head?, isBlank c = true) :
    lexeme? (w.text.points ++ rest) = some ⟨some w.kind, w.text.points, rest⟩ := by
  obtain ⟨kind, text⟩ := w
  cases kind with
  | name =>
    obtain ⟨hword, hfree⟩ : IsName text := h
    have hkind : wordKind text.points = .name := by
      rw [wordKind, hfree]
    rw [lexeme?_word hword hrest, hkind]
  | label =>
    obtain ⟨n, hn, rfl⟩ : ∃ n, IsWord n ∧ text = ⟨'@'.toNat :: n.points⟩ := h
    exact lexeme?_label hn hrest
  | keyword k =>
    obtain rfl : text = k.spelling := h
    obtain ⟨hword, hkind⟩ := isWord_spelling k
    rw [lexeme?_word hword hrest, hkind]
  | mark m =>
    obtain rfl : text = ⟨[m.char.toNat]⟩ := h
    exact lexeme?_mark m rest

end Word

/-- Scanning a text finds its words. -/
theorem scanFrom_spaced {ws : List Word} {cs : List CodePoint} (h : Spaced ws cs)
    (hws : ∀ w ∈ ws, w.Spelled) (pos : Position) :
    ∃ ts, scanFrom pos cs = ⟨ts, none⟩ ∧ ts.map Token.word = ws := by
  induction h generalizing pos with
  | @nil gap hgap =>
    obtain ⟨pos', hpos⟩ := scanFrom_gap hgap (by simp : ∀ c ∈ ([] : List CodePoint).head?, _) pos
    rw [List.append_nil] at hpos
    exact ⟨[], by rw [hpos, scanFrom_nil], rfl⟩
  | @cons gap cs w ws hgap hnext _ ih =>
    have hlex := (hws w (by simp)).lexeme? hnext
    -- what is read as a token does not start with a blank
    have hstart : ∀ c ∈ (w.text.points ++ cs).head?, isBlank c = false := by
      intro c hc
      obtain ⟨tail, htail⟩ := List.head?_eq_some_iff.1 hc
      rw [htail, Source.lexeme?] at hlex
      split at hlex
      · cases hlex
      · rename_i hblank
        simpa using hblank
    obtain ⟨pos', hpos⟩ := scanFrom_gap hgap hstart pos
    obtain ⟨ts, hts, hwords⟩ := ih (fun v hv => hws v (List.mem_cons_of_mem _ hv))
      (pos'.advanceAll w.text.points)
    refine ⟨⟨w.kind, w.text, pos', pos'.advanceAll w.text.points⟩ :: ts, ?_, ?_⟩
    · rw [hpos, scanFrom_of_kind hlex, hts]
    · rw [List.map_cons, hwords]
      rfl

end Sendability.Source

namespace Sendability

open Source

-- ============================================================================
-- The words of a program
-- ============================================================================

/-- The parts of a dotted name. -/
def Text.segments (t : Text) : List Text := (t.points.splitOn '.'.toNat).map Text.mk

/-- A text is its segments with points between them. -/
theorem Text.joined_segments (t : Text) : Text.joined "." t.segments = t := by
  have hmap : t.segments.map Text.points = t.points.splitOn '.'.toNat := by
    rw [segments, List.map_map]
    exact List.map_id _
  obtain ⟨points⟩ := t
  rw [joined, hmap]
  exact congrArg Text.mk (List.intercalate_splitOn _)

/-- Some parts with commas between them. -/
def commas : List (List Word) → List Word
  | [] => []
  | part :: parts => part ++ parts.flatMap (Word.mark .comma :: ·)

/-- Some names with dots between them. -/
def dotted : List Name → List Word
  | [] => []
  | n :: ns => Word.name n :: ns.flatMap fun n => [.mark .dot, .name n]

/-- The name of a value. -/
def Value.words (v : Value) : List Word := [.name v.name]

/-- The name and the type of a value. -/
def Value.typedWords (v : Value) : List Word :=
  [.name v.name, .mark .colon, .name v.type.name]

/-- The attributes of a call: its domain, and none for that it spawns a task. -/
def Call.attributes (c : Call) : List (Option Name) :=
  c.domain.toList.map some ++ if c.spawns then [none] else []

/-- An attribute of a call. -/
def attributeWords : Option Name → List Word
  | some d => [.keyword .onDomain, .name d]
  | none => [.keyword .spawn]

/-- A call without what it defines. -/
def Call.words (c : Call) : List Word :=
  .keyword .call :: (dotted c.callee.segments ++
    (.mark .lpar :: commas (c.args.map Value.words) ++ [.mark .rpar] ++
      c.attributes.flatMap attributeWords))

/-- What stands before the right-hand side of a definition. -/
def Value.definedBy (d : Value) (rhs : List Word) : List Word :=
  d.typedWords ++ .mark .equal :: rhs

/-- An operation. -/
def Op.words : Op → List Word
  | .init d args _ =>
    d.definedBy (.keyword .init :: .name d.type.name ::
      (.mark .lpar :: commas (args.map Value.words) ++ [.mark .rpar]))
  | .load d base field _ =>
    d.definedBy [.keyword .load, .name base.name, .mark .dot, .name field]
  | .copy d src _ => d.definedBy [.keyword .copy, .name src.name]
  | .store base field value _ =>
    [.keyword .store, .name base.name, .mark .dot, .name field, .mark .equal, .name value.name]
  | .closure d captures _ =>
    d.definedBy (.keyword .closure ::
      (.mark .lsqb :: commas (captures.map Value.words) ++ [.mark .rsqb]))
  | .call c => c.dest.elim c.words fun d => d.definedBy c.words
  | .use v kind _ => [.keyword (if kind = .write then .write else .use), .name v.name]

/-- A terminator. -/
def Terminator.words : Terminator → List Word
  | .goto target _ => [.keyword .goto, .label target]
  | .branch targets cond _ =>
    .keyword .br :: (cond.toList.flatMap (fun v => [.name v.name, .mark .qmark]) ++
      commas (targets.map fun n => [.label n]))
  | .ret value _ => .keyword .ret :: value.toList.flatMap Value.words
  | .throw value handler _ =>
    .keyword .throw :: (value.toList.flatMap Value.words ++
      handler.toList.flatMap fun n => [.keyword .toHandler, .label n])
  | .unreachable _ => [.keyword .unreachable]

/-- A block. -/
def Block.words (b : Block) : List Word :=
  .label b.name :: .mark .colon ::
    (b.ops.flatMap Op.words ++ b.terminator.toList.flatMap Terminator.words)

/-- A function. -/
def Func.words (f : Func) : List Word :=
  .keyword .func :: .name f.name :: .mark .lpar ::
    (commas (f.params.map Value.typedWords) ++ .mark .rpar :: .keyword .inDomain :: .name f.domain ::
      .mark .lbrace :: (f.blocks.values.flatMap Block.words ++ [.mark .rbrace]))

/-- The declaration of a type. -/
def TypeInfo.words (t : TypeInfo) : List Word :=
  .keyword .type :: .name t.name :: if t.sendable then [.keyword .sendable] else []

/-- A program: the types first. -/
def Program.words (p : Program) : List Word :=
  p.types.values.flatMap TypeInfo.words ++ p.functions.flatMap Func.words

-- ============================================================================
-- Programs that can be written
-- ============================================================================

/-- The value of a function that a callee names by its first segment, if there are
    others. -/
def Func.receiver? (f : Func) (callee : Name) : Option Value :=
  match callee.segments with
  | first :: _ :: _ => f.definitions.find? fun v => v.name = first
  | _ => none

/-- The parts of an operation that are not values can be written, and are as the
    text form has them. -/
def Op.Plain (f : Func) : Op → Prop
  | .load _ _ field _ | .store _ field _ _ => IsName field
  | .call c =>
    (∀ n ∈ c.callee.segments, IsName n) ∧ (∀ d ∈ c.domain, IsName d) ∧
      c.receiver = f.receiver? c.callee
  | .use _ kind _ => kind = .read ∨ kind = .write
  | .init .. | .copy .. | .closure .. => True

instance (f : Func) : (op : Op) → Decidable (op.Plain f)
  | .load _ _ field _ | .store _ field _ _ => inferInstanceAs (Decidable (IsName field))
  | .call _ => inferInstanceAs (Decidable (_ ∧ _ ∧ _))
  | .use _ _ _ => inferInstanceAs (Decidable (_ ∨ _))
  | .init .. | .copy .. | .closure .. => inferInstanceAs (Decidable True)

/-- A branch has two targets at least. -/
def Terminator.Plain : Terminator → Prop
  | .branch targets _ _ => 2 ≤ targets.length
  | .goto .. | .ret .. | .throw .. | .unreachable _ => True

instance : (t : Terminator) → Decidable t.Plain
  | .branch _ _ _ => inferInstanceAs (Decidable (_ ≤ _))
  | .goto .. | .ret .. | .throw .. | .unreachable _ => inferInstanceAs (Decidable True)

/-- A type is the declared one of its name, or an undeclared one that is not
    sendable. -/
def Source.Types.Gives (types : Types) (t : TypeInfo) : Prop :=
  types.get? t.name = some t ∨ types.get? t.name = none ∧ t.sendable = false

instance (types : Types) (t : TypeInfo) : Decidable (types.Gives t) :=
  inferInstanceAs (Decidable (_ ∨ _))

/-- A block that can be written. -/
structure Block.Expressible (f : Func) (b : Block) : Prop where
  name : IsWord b.name
  ops : ∀ op ∈ b.ops, op.Plain f
  operands : ∀ l ∈ b.operandLists, ∀ e ∈ l, e.1 ∈ f.definitions
  terminated : b.terminator.isSome = true
  plain : ∀ t ∈ b.terminator, t.Plain
  targets : ∀ n ∈ b.successors, IsWord n

instance (f : Func) (b : Block) : Decidable (b.Expressible f) :=
  decidable_of_iff (IsWord b.name ∧ (∀ op ∈ b.ops, op.Plain f) ∧
      (∀ l ∈ b.operandLists, ∀ e ∈ l, e.1 ∈ f.definitions) ∧ b.terminator.isSome = true ∧
      (∀ t ∈ b.terminator, t.Plain) ∧ ∀ n ∈ b.successors, IsWord n)
    ⟨fun ⟨h₁, h₂, h₃, h₄, h₅, h₆⟩ => ⟨h₁, h₂, h₃, h₄, h₅, h₆⟩,
      fun h => ⟨h.name, h.ops, h.operands, h.terminated, h.plain, h.targets⟩⟩

/-- A function that can be written. -/
structure Func.Expressible (types : Types) (f : Func) : Prop where
  name : IsName f.name
  domain : IsName f.domain
  values : ∀ v ∈ f.definitions, IsName v.name ∧ IsName v.type.name ∧ types.Gives v.type
  oneType : ∀ v ∈ f.definitions, ∀ w ∈ f.definitions, v.name = w.name → v.type = w.type
  params : (f.params.map Value.name).Nodup
  entry : f.blocks.keys.head? = some f.entry
  keyed : ∀ e ∈ f.blocks.entries, e.2.name = e.1
  blocks : ∀ b ∈ f.blocks.values, b.Expressible f

/-- A program that can be written. -/
structure Program.Expressible (p : Program) : Prop where
  types : ∀ e ∈ p.types.entries, IsName e.1 ∧ e.2.name = e.1
  names : (p.functions.map Func.name).Nodup
  functions : ∀ f ∈ p.functions, f.Expressible p.types

-- ============================================================================
-- The words are spelled right
-- ============================================================================

theorem spelled_commas {parts : List (List Word)}
    (h : ∀ part ∈ parts, ∀ w ∈ part, w.Spelled) : ∀ w ∈ commas parts, w.Spelled := by
  cases parts with
  | nil => simp [commas]
  | cons part parts =>
    intro w hw
    rcases List.mem_append.1 hw with hw | hw
    · exact h part (by simp) w hw
    · obtain ⟨part', hpart', hw⟩ := List.mem_flatMap.1 hw
      rcases List.mem_cons.1 hw with rfl | hw
      · exact Word.spelled_mark _
      · exact h part' (by simp [hpart']) w hw

theorem spelled_names {vs : List Value} (h : ∀ v ∈ vs, IsName v.name) :
    ∀ w ∈ commas (vs.map Value.words), w.Spelled := by
  apply spelled_commas
  intro part hpart
  obtain ⟨v, hv, rfl⟩ := List.mem_map.1 hpart
  simpa [Value.words] using h v hv

theorem spelled_dotted {ns : List Name} (h : ∀ n ∈ ns, IsName n) : ∀ w ∈ dotted ns, w.Spelled := by
  cases ns with
  | nil => simp [dotted]
  | cons n ns =>
    rw [List.forall_mem_cons] at h
    intro w hw
    rcases List.mem_cons.1 hw with rfl | hw
    · exact h.1
    · obtain ⟨m, hm, hw⟩ := List.mem_flatMap.1 hw
      have hpart : ∀ w ∈ [Word.mark .dot, .name m], w.Spelled := by simpa using h.2 m hm
      exact hpart w hw

theorem Value.spelled_definedBy {d : Value} {rhs : List Word} (hd : IsName d.name)
    (ht : IsName d.type.name) (hrhs : ∀ w ∈ rhs, w.Spelled) :
    ∀ w ∈ d.definedBy rhs, w.Spelled := by
  simp only [definedBy, typedWords, List.forall_mem_append, List.forall_mem_cons]
  exact ⟨⟨hd, rfl, ht, by simp⟩, rfl, hrhs⟩

theorem Call.spelled_words {c : Call} (hcallee : ∀ n ∈ c.callee.segments, IsName n)
    (hdomain : ∀ d ∈ c.domain, IsName d) (hargs : ∀ v ∈ c.args, IsName v.name) :
    ∀ w ∈ c.words, w.Spelled := by
  have hattr : ∀ w ∈ c.attributes.flatMap attributeWords, w.Spelled := by
    intro w hw
    obtain ⟨a, ha, hw⟩ := List.mem_flatMap.1 hw
    cases a with
    | none =>
      obtain rfl := List.mem_singleton.1 hw
      exact Word.spelled_keyword _
    | some d =>
      have hd : d ∈ c.domain := by
        rcases List.mem_append.1 ha with ha | ha
        · simpa using ha
        · split at ha <;> simp at ha
      have hpart : ∀ w ∈ attributeWords (some d), w.Spelled := by
        simpa [attributeWords] using hdomain d hd
      exact hpart w hw
  simp only [words, List.forall_mem_cons, List.forall_mem_append]
  exact ⟨rfl, spelled_dotted hcallee, ⟨⟨rfl, spelled_names hargs⟩, rfl, by simp⟩, hattr⟩

/-- A definition of an operation is one of its function. -/
theorem Func.mem_definitions_of_op {f : Func} {b : Block} (hb : b ∈ f.blocks.values) {op : Op}
    (hop : op ∈ b.ops) : ∀ d ∈ op.dest?, d ∈ f.definitions := by
  intro d hd
  exact List.mem_append_right _ (List.mem_flatMap.2 ⟨b, hb, List.mem_filterMap.2 ⟨op, hop, hd⟩⟩)

section

variable {types : Types} {f : Func} (hf : f.Expressible types)

include hf

/-- The words of an operation on values that can be written are spelled right. -/
theorem Op.spelled_words {op : Op} (hplain : op.Plain f)
    (hdest : ∀ d ∈ op.dest?, d ∈ f.definitions) (hoperands : ∀ e ∈ op.operands, e.1 ∈ f.definitions) :
    ∀ w ∈ op.words, w.Spelled := by
  have hname : ∀ v ∈ f.definitions, IsName v.name := fun v hv => (hf.values v hv).1
  have htype : ∀ v ∈ f.definitions, IsName v.type.name := fun v hv => (hf.values v hv).2.1
  have hmap : ∀ (vs : List Value) (kind : AccessKind),
      (∀ e ∈ vs.map (·, kind), e.1 ∈ f.definitions) → ∀ v ∈ vs, IsName v.name :=
    fun vs kind h v hv => hname v (h (v, kind) (List.mem_map_of_mem hv))
  cases op with
  | init d args loc =>
    have hd := hdest d rfl
    apply Value.spelled_definedBy (hname d hd) (htype d hd)
    simp only [List.forall_mem_cons, List.forall_mem_append]
    exact ⟨rfl, htype d hd, ⟨rfl, spelled_names (hmap _ _ hoperands)⟩, rfl, by simp⟩
  | load d base field loc =>
    have hd := hdest d rfl
    apply Value.spelled_definedBy (hname d hd) (htype d hd)
    simp only [List.forall_mem_cons]
    exact ⟨rfl, hname base (hoperands (base, .read) (by simp [operands])), rfl, hplain, by simp⟩
  | copy d src loc =>
    have hd := hdest d rfl
    apply Value.spelled_definedBy (hname d hd) (htype d hd)
    simp only [List.forall_mem_cons]
    exact ⟨rfl, hname src (hoperands (src, .read) (by simp [operands])), by simp⟩
  | store base field value loc =>
    simp only [words, List.forall_mem_cons]
    exact ⟨rfl, hname base (hoperands (base, .write) (by simp [operands])), rfl, hplain, rfl,
      hname value (hoperands (value, .read) (by simp [operands])), by simp⟩
  | closure d captures loc =>
    have hd := hdest d rfl
    apply Value.spelled_definedBy (hname d hd) (htype d hd)
    simp only [List.forall_mem_cons, List.forall_mem_append]
    exact ⟨rfl, ⟨rfl, spelled_names (hmap _ _ hoperands)⟩, rfl, by simp⟩
  | call c =>
    obtain ⟨hcallee, hdomain, -⟩ := hplain
    have hargs : ∀ v ∈ c.args, IsName v.name := by
      intro v hv
      exact hmap _ _ hoperands v (List.mem_append_right _ hv)
    have hcall := Call.spelled_words hcallee hdomain hargs
    cases hc : c.dest with
    | none =>
      rw [words, hc]
      exact hcall
    | some d =>
      have hd := hdest d hc
      rw [words, hc]
      exact Value.spelled_definedBy (hname d hd) (htype d hd) hcall
  | use v kind loc =>
    simp only [words, List.forall_mem_cons]
    exact ⟨rfl, hname v (hoperands (v, kind) (by simp [operands])), by simp⟩

theorem Terminator.spelled_words {t : Terminator} (htargets : ∀ n ∈ t.successors, IsWord n)
    (hoperands : ∀ e ∈ t.operands, e.1 ∈ f.definitions) : ∀ w ∈ t.words, w.Spelled := by
  have hname : ∀ (v : Option Value) (kind : AccessKind),
      (∀ e ∈ v.toList.map (·, kind), e.1 ∈ f.definitions) → ∀ w ∈ v, IsName w.name :=
    fun v kind h w hw => (hf.values w (h (w, kind) (List.mem_map_of_mem (by simpa using hw)))).1
  cases t with
  | goto target loc =>
    simp only [words, List.forall_mem_cons]
    exact ⟨rfl, Word.spelled_label (htargets target (by simp [successors])), by simp⟩
  | branch targets cond loc =>
    have hcond := hname cond _ hoperands
    have hlabels : ∀ w ∈ commas (targets.map fun n => [.label n]), w.Spelled := by
      apply spelled_commas
      intro part hpart
      obtain ⟨n, hn, rfl⟩ := List.mem_map.1 hpart
      simpa using Word.spelled_label (htargets n hn)
    simp only [words, List.forall_mem_cons, List.forall_mem_append]
    refine ⟨rfl, ?_, hlabels⟩
    cases cond with
    | none => simp
    | some v => simpa using hcond v rfl
  | ret value loc =>
    have hvalue := hname value _ hoperands
    simp only [words, List.forall_mem_cons]
    refine ⟨rfl, ?_⟩
    cases value with
    | none => simp
    | some v => simpa [Value.words] using hvalue v rfl
  | throw value handler loc =>
    have hvalue := hname value _ hoperands
    simp only [words, List.forall_mem_cons, List.forall_mem_append]
    refine ⟨rfl, ?_, ?_⟩
    · cases value with
      | none => simp
      | some v => simpa [Value.words] using hvalue v rfl
    · cases handler with
      | none => simp
      | some n => simpa using Word.spelled_label (htargets n (by simp [successors]))
  | unreachable loc => simp [words]

theorem Func.spelled_words : ∀ w ∈ f.words, w.Spelled := by
  have hparams : ∀ w ∈ commas (f.params.map Value.typedWords), w.Spelled := by
    apply spelled_commas
    intro part hpart
    obtain ⟨v, hv, rfl⟩ := List.mem_map.1 hpart
    obtain ⟨hname, htype, -⟩ := hf.values v (List.mem_append_left _ hv)
    simpa [Value.typedWords] using ⟨hname, htype⟩
  have hblocks : ∀ w ∈ f.blocks.values.flatMap Block.words, w.Spelled := by
    intro w hw
    obtain ⟨b, hb, hw⟩ := List.mem_flatMap.1 hw
    have hexpr := hf.blocks b hb
    simp only [Block.words, List.mem_cons, List.mem_append, List.mem_flatMap] at hw
    rcases hw with rfl | rfl | ⟨op, hop, hw⟩ | ⟨t, ht, hw⟩
    · exact Word.spelled_label hexpr.name
    · exact Word.spelled_mark _
    · refine Op.spelled_words hf (hexpr.ops op hop) (mem_definitions_of_op hb hop) ?_ w hw
      exact hexpr.operands _ (by simpa [Block.operandLists] using .inl ⟨op, hop, rfl⟩)
    · rw [Option.mem_toList] at ht
      have htargets := hexpr.targets
      rw [Block.successors, ht] at htargets
      refine Terminator.spelled_words hf htargets ?_ w hw
      exact hexpr.operands _ (by simp [Block.operandLists, ht])
  simp only [words, List.forall_mem_cons, List.forall_mem_append]
  exact ⟨rfl, hf.name, rfl, hparams, rfl, rfl, hf.domain, rfl, hblocks, rfl, by simp⟩

end

/-- The words of a program that can be written are spelled right. -/
theorem Program.spelled_words {p : Program} (hp : p.Expressible) : ∀ w ∈ p.words, w.Spelled := by
  intro w hw
  rcases List.mem_append.1 hw with hw | hw
  · obtain ⟨t, ht, hw⟩ := List.mem_flatMap.1 hw
    obtain ⟨e, he, rfl⟩ := List.mem_map.1 ht
    obtain ⟨hname, hkey⟩ := hp.types e he
    have hwords : ∀ w ∈ e.2.words, w.Spelled := by
      rw [TypeInfo.words, hkey]
      cases e.2.sendable <;> simpa using hname
    exact hwords w hw
  · obtain ⟨f, hf, hw⟩ := List.mem_flatMap.1 hw
    exact Func.spelled_words (hp.functions f hf) w hw

/-- Scanning a written program finds its words. -/
theorem Program.scan_words {p : Program} (hp : p.Expressible) {text : Text}
    (htext : Spaced p.words text.points) :
    ∃ ts, scan text = ⟨ts, none⟩ ∧ ts.map Token.word = p.words :=
  scanFrom_spaced htext (spelled_words hp) _

end Sendability
