/-
  What an invocation names: its files and its configuration.

  A path that can be opened is `Unreadable` or leads to octets; where those are
  UTF-8 it `Spells` a text, and `Legible` says that there is nothing else to fear
  from a path. A text is `Manageable` as a configuration if no number, no level
  and no wrong value in it is too much for the machine. `Resolves` tells which
  configuration options ask for, and `resolve` computes it.

  The limits of the machine matter only where they are exceeded: a configuration
  that was found or refused is the same on a larger machine (`resolve_of_le`), and
  on machines that are large enough nothing differs (`resolve_of_room`).
-/

import Sendability.Command.Run
import Sendability.Proofs.Arguments
import Sendability.Proofs.Decoding
import Sendability.Proofs.Nesting

namespace Sendability.Command

variable {limits limits' : Json.Limits} {read : FileReader} {o : Options} {c : Config}
  {path : Text} {text : List Char} {f : FileFault}

/-! ## Files -/

/-- The octets by which a path is opened: they encode it and hold no null. -/
def Opens (path : Text) (octets : List UInt8) : Prop :=
  Text.Utf8.encodePath path = .ok octets ∧ 0 ∉ octets

/-- The file at a path cannot be read for some reason. -/
def Unreadable (read : FileReader) (path : Text) (f : FileFault) : Prop :=
  ∃ octets, Opens path octets ∧ read octets = .error f

/-- The file at a path holds a text. -/
def Spells (read : FileReader) (path : Text) (text : List Char) : Prop :=
  ∃ octets content, Opens path octets ∧ read octets = .ok content ∧
    Text.Utf8.readText content = .ok text

/-- A path can be opened, and what is read there, if anything, is UTF-8. -/
def Legible (read : FileReader) (path : Text) : Prop :=
  ∃ octets, Opens path octets ∧
    ∀ content, read octets = .ok content → content.toByteArray.IsValidUTF8

/-- A path is opened exactly by its octets, and the reader answers for them. -/
theorem readOctets_ok_iff {r : Except FileFault (List UInt8)} :
    readOctets read path = .ok r ↔ ∃ octets, Opens path octets ∧ read octets = r := by
  unfold readOctets Opens
  cases Text.Utf8.encodePath path with
  | error u => simp
  | ok octets => by_cases h : (0 : UInt8) ∈ octets <;> simp [h]

theorem readText_ok_iff {content : List UInt8} :
    readText content = .ok text ↔ Text.Utf8.readText content = .ok text := by
  unfold readText
  cases Text.Utf8.readText content <;> simp [Except.mapError]

theorem Unreadable.readOctets (h : Unreadable read path f) :
    readOctets read path = .ok (.error f) :=
  readOctets_ok_iff.2 h

theorem Spells.readOctets (h : Spells read path text) : ∃ content,
    Command.readOctets read path = .ok (.ok content) ∧ readText content = .ok text := by
  obtain ⟨octets, content, hopens, hread, htext⟩ := h
  exact ⟨content, readOctets_ok_iff.2 ⟨octets, hopens, hread⟩, readText_ok_iff.2 htext⟩

/-- The file at a path holds one text at most. -/
theorem Spells.unique {text' : List Char} (h : Spells read path text)
    (h' : Spells read path text') : text = text' := by
  obtain ⟨content, hoctets, htext⟩ := h.readOctets
  obtain ⟨content', hoctets', htext'⟩ := h'.readOctets
  cases hoctets.symm.trans hoctets'
  exact Except.ok.inj (htext.symm.trans htext')

/-- Either the file at a legible path cannot be read or it holds a text. -/
theorem legible_iff :
    Legible read path ↔ (∃ f, Unreadable read path f) ∨ ∃ text, Spells read path text := by
  constructor
  · rintro ⟨octets, hopens, hvalid⟩
    cases hread : read octets with
    | error f => exact .inl ⟨f, octets, hopens, hread⟩
    | ok content =>
      obtain ⟨text, htext⟩ := Text.Utf8.readText_ok_iff.2 (hvalid content hread)
      exact .inr ⟨text, octets, content, hopens, hread, htext⟩
  · rintro (⟨f, octets, hopens, hread⟩ | ⟨text, octets, content, hopens, hread, htext⟩)
    · refine ⟨octets, hopens, fun content h => ?_⟩
      rw [hread] at h
      cases h
    · refine ⟨octets, hopens, fun content' h => ?_⟩
      rw [hread] at h
      cases h
      exact Text.Utf8.readText_ok_iff.1 ⟨text, htext⟩

/-- What comes of a path that is not legible: it cannot be opened, or what is
    read there cannot be decoded. -/
theorem aborts_of_not_legible (h : ¬ Legible read path) :
    (∃ a, readOctets read path = .error a) ∨
      ∃ content a, readOctets read path = .ok (.ok content) ∧ readText content = .error a := by
  cases hoctets : readOctets read path with
  | error a => exact .inl ⟨a, rfl⟩
  | ok r =>
    obtain ⟨octets, hopens, hread⟩ := readOctets_ok_iff.1 hoctets
    cases r with
    | error f => exact absurd (legible_iff.2 (.inl ⟨f, octets, hopens, hread⟩)) h
    | ok content =>
      cases htext : readText content with
      | error a => exact .inr ⟨content, a, rfl, htext⟩
      | ok text =>
        exact absurd (legible_iff.2
          (.inr ⟨text, octets, content, hopens, hread, readText_ok_iff.1 htext⟩)) h

/-! ## Configuration -/

/-- The path of a source or a configuration given as an argument. -/
def pathOf (arg : Text) : Text := (Path.ofText arg).render

/-- Nothing about a configuration with some text can end a run: its numbers and
    its levels can be read, and a value in it that is refused can be shown. -/
structure Manageable (limits : Json.Limits) (text : List Char) : Prop where
  short : ∀ n, Json.parse limits.read text ≠ .error (.longNumber n)
  shallow : Json.Shallow (Json.parse limits.read text)
  shown : ∀ doc f, Json.parse limits.read text = .ok doc → Config.ofJson doc = .error f →
    f.nesting ≤ limits.shown

/-- The configuration that options start from: the defaults, or what the document
    in a file describes. -/
inductive Options.Starts (limits : Json.Limits) (read : FileReader) (o : Options) :
    Config → Prop where
  | unset (habsent : o.config = .absent) : Starts limits read o {}
  | file {p : Text} {text : List Char} {doc : Json} {c : Config} (hgiven : o.config = .given p)
      (htext : Spells read (pathOf p) text) (hdoc : Json.parse limits.read text = .ok doc)
      (hconfig : Config.ofJson doc = .ok c) : Starts limits read o c

/-- The configuration that options ask for: the switch turns the check off
    whatever the file says, and a severity comes before the one in the file. -/
def Options.Resolves (limits : Json.Limits) (read : FileReader) (o : Options) (c : Config) :
    Prop :=
  ∃ base, o.Starts limits read base ∧ c.enabled = (base.enabled && !o.disable) ∧
    (o.severity = .given c.severity ∨ o.severity = .absent ∧ c.severity = base.severity)

/-- Nothing about the configuration can end a run: its path is not blank and
    legible, and its text is manageable. -/
structure Options.Configurable (limits : Json.Limits) (read : FileReader) (o : Options) :
    Prop where
  not_blank : o.config ≠ .blank
  legible : ∀ p, o.config = .given p → Legible read (pathOf p)
  manageable : ∀ p text, o.config = .given p → Spells read (pathOf p) text →
    Manageable limits text

theorem loadConfig_of_unreadable (h : Unreadable read path f) :
    loadConfig limits read path = .ok (.error (.unreadable path (f.message path))) := by
  rw [loadConfig, h.readOctets]
  rfl

/-- Only the text at its path matters for a configuration. -/
theorem loadConfig_of_spells (h : Spells read path text) :
    loadConfig limits read path = configOfText limits path text := by
  obtain ⟨content, hoctets, htext⟩ := h.readOctets
  rw [loadConfig, hoctets]
  show readText content >>= configOfText limits path = _
  rw [htext]
  rfl

theorem loadConfig_of_not_legible (h : ¬ Legible read path) :
    ∃ a, ∀ limits, loadConfig limits read path = .error a := by
  rcases aborts_of_not_legible h with ⟨a, hoctets⟩ | ⟨content, a, hoctets, htext⟩
  · exact ⟨a, fun limits => by rw [loadConfig, hoctets]; rfl⟩
  · refine ⟨a, fun limits => ?_⟩
    rw [loadConfig, hoctets]
    show readText content >>= configOfText limits path = _
    rw [htext]
    rfl

/-- A text gives a configuration exactly when it is a document that describes one. -/
theorem configOfText_ok_iff :
    configOfText limits path text = .ok (.ok c) ↔
      ∃ doc, Json.parse limits.read text = .ok doc ∧ Config.ofJson doc = .ok c := by
  unfold configOfText
  cases hdoc : Json.parse limits.read text with
  | ok doc =>
    cases hconfig : Config.ofJson doc with
    | ok c => simp [hconfig]
    | error f => by_cases hdeep : limits.shown < f.nesting <;> simp [hconfig, hdeep]
  | error e => cases e <;> simp

/-- The text of a configuration ends the run exactly when it is not manageable. -/
theorem configOfText_isOk :
    (∃ r, configOfText limits path text = .ok r) ↔ Manageable limits text := by
  unfold configOfText
  cases hdoc : Json.parse limits.read text with
  | ok doc =>
    cases hconfig : Config.ofJson doc with
    | ok c =>
      refine iff_of_true ⟨.ok c, by simp [hconfig]⟩
        ⟨by simp [hdoc], by simp [hdoc, Json.shallow_ok], ?_⟩
      intro doc' f hdoc' hf
      cases hdoc.symm.trans hdoc'
      cases hconfig.symm.trans hf
    | error f =>
      by_cases hdeep : limits.shown < f.nesting
      · refine iff_of_false (by simp [hconfig, hdeep]) fun h => ?_
        exact absurd (h.shown doc f hdoc hconfig) (Nat.not_le.2 hdeep)
      · refine iff_of_true ⟨.error f, by simp [hconfig, hdeep]⟩
          ⟨by simp [hdoc], by simp [hdoc, Json.shallow_ok], ?_⟩
        intro doc' f' hdoc' hf'
        cases hdoc.symm.trans hdoc'
        cases hconfig.symm.trans hf'
        exact Nat.not_lt.1 hdeep
  | error e =>
    cases e with
    | invalid p pos =>
      refine iff_of_true ⟨_, rfl⟩ ⟨by simp [hdoc], by simp [hdoc, Json.shallow_invalid], ?_⟩
      simp [hdoc]
    | longNumber n => exact iff_of_false (by simp) fun h => h.short n hdoc
    | tooDeep k => exact iff_of_false (by simp) fun h => h.shallow k hdoc

-- three arrays take three levels, and a value of two levels needs two to be shown
example : configOfText ⟨2, 9⟩ "c" "[[[]]]".toList = .error (.deepDocument .array) := by rfl
example : configOfText ⟨9, 1⟩ "c" "\x7b\"enabled\": [[0]]\x7d".toList = .error .deepValue := by cbv

/-- A configuration is loaded exactly when a document that describes it is at the
    path. -/
theorem loadConfig_ok_iff :
    loadConfig limits read path = .ok (.ok c) ↔ ∃ text doc, Spells read path text ∧
      Json.parse limits.read text = .ok doc ∧ Config.ofJson doc = .ok c := by
  constructor
  · intro h
    by_cases hlegible : Legible read path
    · rcases legible_iff.1 hlegible with ⟨f, hf⟩ | ⟨text, htext⟩
      · rw [loadConfig_of_unreadable hf] at h
        cases h
      · rw [loadConfig_of_spells htext] at h
        obtain ⟨doc, hdoc, hc⟩ := configOfText_ok_iff.1 h
        exact ⟨text, doc, htext, hdoc, hc⟩
    · obtain ⟨a, ha⟩ := loadConfig_of_not_legible hlegible
      rw [ha] at h
      cases h
  · rintro ⟨text, doc, htext, hdoc, hc⟩
    rw [loadConfig_of_spells htext]
    exact configOfText_ok_iff.2 ⟨doc, hdoc, hc⟩

/-- Loading a configuration ends the run exactly when its path is illegible or its
    text is not manageable. -/
theorem loadConfig_isOk :
    (∃ r, loadConfig limits read path = .ok r) ↔ Legible read path ∧
      ∀ text, Spells read path text → Manageable limits text := by
  constructor
  · rintro ⟨r, hr⟩
    refine ⟨?_, fun text htext => ?_⟩
    · by_contra hnot
      obtain ⟨a, ha⟩ := loadConfig_of_not_legible hnot
      rw [ha] at hr
      cases hr
    · rw [loadConfig_of_spells htext] at hr
      exact configOfText_isOk.1 ⟨r, hr⟩
  · rintro ⟨hlegible, hmanageable⟩
    rcases legible_iff.1 hlegible with ⟨f, hf⟩ | ⟨text, htext⟩
    · exact ⟨_, loadConfig_of_unreadable hf⟩
    · rw [loadConfig_of_spells htext]
      exact configOfText_isOk.2 (hmanageable text htext)

/-- What options start from is computed. -/
theorem Options.base_ok_iff : o.base limits read = .ok (.ok c) ↔ o.Starts limits read c := by
  constructor
  · intro h
    unfold Options.base at h
    split at h
    · rename_i habsent
      cases h
      exact .unset habsent
    · cases h
    · rename_i p hgiven
      obtain ⟨text, doc, htext, hdoc, hc⟩ := loadConfig_ok_iff.1 h
      exact .file hgiven htext hdoc hc
  · intro h
    cases h with
    | unset habsent => rw [Options.base, habsent]
    | file hgiven htext hdoc hc =>
      rw [Options.base, hgiven]
      exact loadConfig_ok_iff.2 ⟨_, _, htext, hdoc, hc⟩

theorem Options.base_isOk :
    (∃ r, o.base limits read = .ok r) ↔ o.Configurable limits read := by
  unfold Options.base
  cases hconfig : o.config with
  | absent => simpa using ⟨by simp [hconfig], by simp [hconfig], by simp [hconfig]⟩
  | blank => simpa using fun h : o.Configurable limits read => h.not_blank hconfig
  | given p =>
    show (∃ r, loadConfig limits read (pathOf p) = .ok r) ↔ _
    rw [loadConfig_isOk]
    constructor
    · rintro ⟨hlegible, hmanageable⟩
      refine ⟨by simp [hconfig], ?_, ?_⟩
      · rintro _ hp
        cases hconfig.symm.trans hp
        exact hlegible
      · rintro _ text hp
        cases hconfig.symm.trans hp
        exact hmanageable text
    · exact fun h => ⟨h.legible p hconfig, fun text => h.manageable p text hconfig⟩

theorem Options.adjust_ok_iff {base : Config} :
    o.adjust base = .ok c ↔ c.enabled = (base.enabled && !o.disable) ∧
      (o.severity = .given c.severity ∨ o.severity = .absent ∧ c.severity = base.severity) := by
  unfold Options.adjust
  obtain ⟨enabled, severity⟩ := c
  cases o.severity with
  | absent => simp [eq_comm]
  | blank => simp
  | given s => simp [eq_comm]

/-- What options ask for is computed. -/
theorem Options.resolve_ok_iff :
    o.resolve limits read = .ok (.ok c) ↔ o.Resolves limits read c := by
  unfold Options.resolve Options.Resolves
  constructor
  · intro h
    obtain ⟨r, hr, h⟩ := ok_of_bind h
    cases r with
    | error f => cases h
    | ok base =>
      have hadjust : o.adjust base = .ok c := Except.ok.inj h
      exact ⟨base, base_ok_iff.1 hr, adjust_ok_iff.1 hadjust⟩
  · rintro ⟨base, hbase, hc⟩
    rw [base_ok_iff.2 hbase]
    exact congrArg Except.ok (adjust_ok_iff.2 hc)

/-- Resolving options ends the run exactly when they are not configurable. -/
theorem Options.resolve_isOk :
    (∃ r, o.resolve limits read = .ok r) ↔ o.Configurable limits read := by
  rw [← base_isOk]
  unfold Options.resolve
  cases o.base limits read with
  | error a => simp [bind, Except.bind]
  | ok r => simp [bind, Except.bind, pure, Except.pure]

/-- Options ask for one configuration at most. -/
theorem Options.Resolves.unique {c' : Config} (h : o.Resolves limits read c)
    (h' : o.Resolves limits read c') : c = c' :=
  Except.ok.inj (Except.ok.inj ((resolve_ok_iff.2 h).symm.trans (resolve_ok_iff.2 h')))

/-! ## Severities -/

theorem severity_of_readSeverity {v : Json} {severity : Text}
    (h : Config.readSeverity v = .ok severity) : severity ∈ severities := by
  unfold Config.readSeverity at h
  split at h
  · split at h
    · rename_i hknown
      cases h
      exact hknown
    · cases h
  · cases h

theorem withOverrides_eq (c : Config) (enabled severity : Option Json) :
    c.withOverrides enabled severity = (do
      let e ← enabled.elim (pure c.enabled) Config.readEnabled
      let s ← severity.elim (pure c.severity) Config.readSeverity
      return { enabled := e, severity := s }) := by
  cases enabled <;> cases severity <;> rfl

theorem severity_of_withOverrides {base : Config} {enabled severity : Option Json}
    (hbase : base.severity ∈ severities) (h : base.withOverrides enabled severity = .ok c) :
    c.severity ∈ severities := by
  rw [withOverrides_eq] at h
  obtain ⟨e, -, h⟩ := ok_of_bind h
  obtain ⟨s, hs, h⟩ := ok_of_bind h
  cases h
  cases severity with
  | none =>
    cases hs
    exact hbase
  | some v => exact severity_of_readSeverity hs

/-- Documents describe known severities only. -/
theorem severity_of_ofJson {doc : Json} (h : Config.ofJson doc = .ok c) :
    c.severity ∈ severities := by
  unfold Config.ofJson at h
  split at h
  · split at h
    · exact severity_of_withOverrides (by decide) h
    · cases h
  · cases h

/-- Accepted arguments ask for a known severity only. -/
theorem Options.Resolves.severity {args : List Text} (h : o.Resolves limits read c)
    (hparse : Options.parse args = .run o) : c.severity ∈ severities := by
  obtain ⟨base, hbase, -, hgiven | ⟨-, hsame⟩⟩ := h
  · exact (asked_of_parse hparse).2 _ hgiven
  · rw [hsame]
    cases hbase with
    | unset => decide
    | file _ _ _ hc => exact severity_of_ofJson hc

/-! ## Limits -/

theorem readEnabled_error {v : Json} {f : ConfigFault} (h : Config.readEnabled v = .error f) :
    f = .badEnabled v := by
  unfold Config.readEnabled at h
  split at h
  · cases h
  · cases h
    rfl

theorem readSeverity_error {v : Json} {f : ConfigFault} (h : Config.readSeverity v = .error f) :
    f = .badSeverity v := by
  unfold Config.readSeverity at h
  split at h
  · split at h
    · cases h
    · cases h
      rfl
  · cases h
    rfl

/-- A value that is refused is one of those given. -/
theorem withOverrides_error {enabled severity : Option Json} {f : ConfigFault}
    (h : c.withOverrides enabled severity = .error f) :
    (∃ v, enabled = some v ∧ f = .badEnabled v) ∨ ∃ v, severity = some v ∧ f = .badSeverity v := by
  rw [withOverrides_eq] at h
  rcases error_of_bind h with hfirst | ⟨e, -, h⟩
  · cases enabled with
    | none => cases hfirst
    | some v => exact .inl ⟨v, rfl, readEnabled_error hfirst⟩
  · rcases error_of_bind h with hsecond | ⟨s, -, h⟩
    · cases severity with
      | none => cases hsecond
      | some v => exact .inr ⟨v, rfl, readSeverity_error hsecond⟩
    · cases h

/-- A fault shows a part of the document only. -/
theorem nesting_le_of_ofJson {doc : Json} {f : ConfigFault} (h : Config.ofJson doc = .error f) :
    f.nesting ≤ doc.nesting := by
  unfold Config.ofJson at h
  split at h
  · split at h
    · rcases withOverrides_error h with ⟨v, hv, rfl⟩ | ⟨v, hv, rfl⟩
      · exact Nat.le_of_lt (Json.nesting_lt_of_member? hv)
      · exact Nat.le_of_lt (Json.nesting_lt_of_member? hv)
    · cases h
      exact Nat.zero_le _
  · cases h
    exact Nat.zero_le _

/-- Machines that read a text alike and can show what is wrong in it make the same of
    it. -/
theorem configOfText_congr
    (hparse : Json.parse limits'.read text = Json.parse limits.read text)
    (hshown : ∀ doc f, Json.parse limits.read text = .ok doc → Config.ofJson doc = .error f →
      f.nesting ≤ limits.shown ∧ f.nesting ≤ limits'.shown) :
    configOfText limits' path text = configOfText limits path text := by
  unfold configOfText
  rw [hparse]
  cases hdoc : Json.parse limits.read text with
  | error e => cases e <;> rfl
  | ok doc =>
    cases hconfig : Config.ofJson doc with
    | ok c => simp only [hconfig]
    | error f =>
      obtain ⟨hle, hle'⟩ := hshown doc f hdoc hconfig
      simp only [hconfig, if_neg (Nat.not_lt.2 hle), if_neg (Nat.not_lt.2 hle')]

/-- A larger machine makes the same of a manageable text. -/
theorem configOfText_of_le (hread : limits.read ≤ limits'.read)
    (hshown : limits.shown ≤ limits'.shown) (h : Manageable limits text) :
    configOfText limits' path text = configOfText limits path text := by
  refine configOfText_congr (Json.parse_of_le hread h.shallow) fun doc f hdoc hf => ?_
  have hle := h.shown doc f hdoc hf
  exact ⟨hle, Nat.le_trans hle hshown⟩

/-- Machines with a level for every opening character make the same of a text. -/
theorem configOfText_of_room {levels : Nat} (h : text.countP Json.isOpening ≤ levels)
    (hread : levels ≤ limits.read) (hshown : levels ≤ limits.shown) :
    configOfText limits path text = configOfText ⟨levels, levels⟩ path text := by
  refine configOfText_congr (Json.parse_of_le hread (Json.parse_shallow h)) fun doc f hdoc hf => ?_
  have hle := Nat.le_trans (nesting_le_of_ofJson hf) (Json.nesting_le_of_parse hdoc)
  exact ⟨hle, Nat.le_trans hle hshown⟩

/-- The limits matter for nothing but the text of the configuration. -/
theorem Options.resolve_congr (h : ∀ p text, o.config = .given p → Spells read (pathOf p) text →
    configOfText limits' (pathOf p) text = configOfText limits (pathOf p) text) :
    o.resolve limits' read = o.resolve limits read := by
  have hbase : o.base limits' read = o.base limits read := by
    unfold Options.base
    cases hconfig : o.config with
    | absent => rfl
    | blank => rfl
    | given p =>
      show loadConfig limits' read (pathOf p) = loadConfig limits read (pathOf p)
      by_cases hlegible : Legible read (pathOf p)
      · rcases legible_iff.1 hlegible with ⟨f, hf⟩ | ⟨text, htext⟩
        · rw [loadConfig_of_unreadable hf, loadConfig_of_unreadable hf]
        · rw [loadConfig_of_spells htext, loadConfig_of_spells htext, h p text hconfig htext]
      · obtain ⟨a, ha⟩ := loadConfig_of_not_legible hlegible
        rw [ha, ha]
  rw [Options.resolve, hbase]
  rfl

/-- What came of a configuration comes of it on a larger machine too. -/
theorem Options.resolve_of_le (hread : limits.read ≤ limits'.read)
    (hshown : limits.shown ≤ limits'.shown) (h : o.Configurable limits read) :
    o.resolve limits' read = o.resolve limits read :=
  resolve_congr fun p text hp htext =>
    configOfText_of_le hread hshown (h.manageable p text hp htext)

/-- On machines that are large enough the same comes of a configuration. -/
theorem Options.resolve_of_room (read : FileReader) (o : Options) :
    ∃ levels, ∀ limits : Json.Limits, levels ≤ limits.read → levels ≤ limits.shown →
      o.resolve limits read = o.resolve ⟨levels, levels⟩ read := by
  by_cases hfile : ∃ p text, o.config = .given p ∧ Spells read (pathOf p) text
  · obtain ⟨p, text, hp, htext⟩ := hfile
    refine ⟨text.countP Json.isOpening, fun limits hread hshown => ?_⟩
    refine resolve_congr fun p' text' hp' htext' => ?_
    cases hp.symm.trans hp'
    cases htext.unique htext'
    exact configOfText_of_room (Nat.le_refl _) hread hshown
  · refine ⟨0, fun limits _ _ => resolve_congr fun p text hp htext => ?_⟩
    exact absurd ⟨p, text, hp, htext⟩ hfile

end Sendability.Command
