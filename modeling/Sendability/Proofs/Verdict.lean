/-
  The exit code as a verdict.

  A run ends with zero exactly when there is a configuration, every source holds
  a program, and no function of one stands against it: the check is off, or the
  function is `Clear`. A list of reports holds no error exactly when none of them
  does (`anyError_flatten`), so functions, sources and runs are judged alike.
-/

import Sendability.Proofs.Collation
import Sendability.Proofs.Reporting

namespace Sendability.Command

variable {limits : Json.Limits} {read : FileReader} {o : Options} {config : Config}
  {bound : Option Int} {path : Text} {args : List Text} {f : Func} {ds : List Diagnostic}

/-! ## Functions -/

/-- A function is accepted and its analysis converges, and races are warnings or
    there are none. -/
def Clear (config : Config) (bound : Option Int) (f : Func) : Prop :=
  f.validate = .ok () ∧
    ∃ a, f.solve (Classifier.asWritten (σ := Unit)) () (bound.getD f.iterationBound) =
      .ok (a, ()) ∧ (config.severity = "warning" ∨ synthesize config.severity a.accesses = [])

theorem isError_of_mem_synthesize {severity : Text} {accesses : List Access} {d : Diagnostic}
    (h : d ∈ synthesize severity accesses) : d.isError = decide (severity = "error") := by
  obtain ⟨g, -, rfl⟩ := List.mem_map.1 h
  rfl

theorem anyError_synthesize {severity : Text} (accesses : List Access)
    (hknown : severity ∈ severities) :
    Diagnostic.anyError (synthesize severity accesses) = false ↔
      severity = "warning" ∨ synthesize severity accesses = [] := by
  rw [Diagnostic.anyError, List.any_eq_false]
  constructor
  · intro h
    rcases List.eq_nil_or_concat (synthesize severity accesses) with hnil | ⟨ds, d, hd⟩
    · exact .inr hnil
    · have hmem : d ∈ synthesize severity accesses := by simp [hd]
      have herror : severity ≠ "error" := by
        simpa [isError_of_mem_synthesize hmem] using h d hmem
      simp only [severities, List.mem_cons, List.not_mem_nil, or_false] at hknown
      exact .inl (hknown.resolve_left herror)
  · rintro (rfl | hnil) d hd
    · rw [isError_of_mem_synthesize hd]
      decide
    · rw [hnil] at hd
      cases hd

theorem check_ok {r : CheckResult}
    (h : f.check config (Classifier.asWritten (σ := Unit)) () bound = .ok (r, ())) :
    (config.enabled = false ∧ r.diagnostics = []) ∨
      config.enabled = true ∧ f.validate = .ok () ∧
        ∃ a, f.solve (Classifier.asWritten (σ := Unit)) () (bound.getD f.iterationBound) =
          .ok (a, ()) ∧ r.diagnostics = synthesize config.severity a.accesses := by
  rcases Func.check_cases h with ⟨hoff, rfl, -⟩ | ⟨henabled, hvalid, a, hsolve, rfl⟩
  · exact .inl ⟨hoff, rfl⟩
  · exact .inr ⟨henabled, hvalid, a, hsolve, rfl⟩

/-- A function's report holds no error exactly when the check is off or the
    function is clear. -/
theorem FunctionReport.anyError_iff (hknown : config.severity ∈ severities)
    (h : FunctionReport config bound f ds) :
    Diagnostic.anyError ds = false ↔ config.enabled = false ∨ Clear config bound f := by
  cases h with
  | checked hcheck =>
    rcases check_ok hcheck with ⟨hoff, hnil⟩ | ⟨henabled, hvalid, a, hsolve, hds⟩
    · simp [hoff, hnil, Diagnostic.anyError]
    · rw [hds, anyError_synthesize a.accesses hknown]
      constructor
      · exact fun h => .inr ⟨hvalid, a, hsolve, h⟩
      · rintro (hoff | ⟨-, a', hsolve', h⟩)
        · rw [henabled] at hoff
          cases hoff
        · cases hsolve.symm.trans hsolve'
          exact h
  | malformed henabled hinvalid =>
    simp [Diagnostic.anyError, henabled, Clear, hinvalid]
  | diverged henabled hvalid hdiverged =>
    simp [Diagnostic.anyError, henabled, Clear, hdiverged]

/-! ## Sources -/

/-- Reports hold no error exactly when every one is without. -/
theorem anyError_flatten {α : Type} {R : α → List Diagnostic → Prop} {Q : α → Prop}
    {xs : List α} {reports : List (List Diagnostic)} (h : List.Forall₂ R xs reports)
    (hiff : ∀ x ds, R x ds → (Diagnostic.anyError ds = false ↔ Q x)) :
    Diagnostic.anyError reports.flatten = false ↔ ∀ x ∈ xs, Q x := by
  induction h with
  | nil => simp [Diagnostic.anyError]
  | cons hx _ ih =>
    rw [List.forall_mem_cons, ← ih, ← hiff _ _ hx]
    simp [Diagnostic.anyError, List.any_append]

theorem Unreadable.not_spells {e : FileFault} {text : List Char} (h : Unreadable read path e) :
    ¬ Spells read path text := by
  intro hspells
  obtain ⟨content, hoctets, -⟩ := hspells.readOctets
  cases h.readOctets.symm.trans hoctets

/-- A source's report holds no error exactly when the source holds a program whose
    functions do not stand against it. -/
theorem SourceReport.anyError_iff (hknown : config.severity ∈ severities)
    (h : SourceReport read config bound path ds) :
    Diagnostic.anyError ds = false ↔ ∃ p, Parses read path p ∧
      (config.enabled = false ∨ ∀ f ∈ p.functions, Clear config bound f) := by
  cases h with
  | unreadable hread =>
    refine iff_of_false (by simp [Diagnostic.anyError]) ?_
    rintro ⟨p, ⟨text, htext, -⟩, -⟩
    exact hread.not_spells htext
  | unparsable htext hparse =>
    refine iff_of_false (by simp [Diagnostic.anyError]) ?_
    rintro ⟨p, ⟨text, htext', hok⟩, -⟩
    cases htext.unique htext'
    cases hparse.symm.trans hok
  | @checked p reports hparses hreports =>
    rw [anyError_flatten hreports fun f ds h => h.anyError_iff hknown]
    constructor
    · intro hall
      refine ⟨p, hparses, ?_⟩
      by_cases hoff : config.enabled = false
      · exact .inl hoff
      · exact .inr fun f hf => (hall f hf).resolve_left hoff
    · rintro ⟨q, ⟨text, htext, hq⟩, hclear⟩ f hf
      obtain ⟨text', htext', hp⟩ := hparses
      cases htext.unique htext'
      cases hp.symm.trans hq
      exact hclear.imp_right fun h => h f hf

/-! ## Runs -/

/-- The sources of a configured run are legible exactly when their paths can be
    opened, if all files are UTF-8. -/
theorem legible_iff_opens
    (hutf8 : ∀ octets content, read octets = .ok content → content.toByteArray.IsValidUTF8) :
    Legible read path ↔ ∃ octets, Opens path octets :=
  ⟨fun ⟨octets, hopens, _⟩ => ⟨octets, hopens⟩,
    fun ⟨octets, hopens⟩ => ⟨octets, hopens, hutf8 octets⟩⟩

theorem Options.Resolves.configurable {c : Config} (h : o.Resolves limits read c) :
    o.Configurable limits read :=
  Options.resolve_isOk.1 ⟨_, Options.resolve_ok_iff.2 h⟩

/-- With a configuration, nothing but a source can be illegible. -/
theorem Options.Resolves.legible_iff {c : Config} (h : o.Resolves limits read c) :
    o.Legible limits read ↔ ∀ path ∈ o.paths, Command.Legible read path :=
  ⟨fun hlegible => hlegible.sources c h, fun hall => ⟨h.configurable, fun _ _ => hall⟩⟩

/-- The exit code is the verdict, and every function is reported on. A run returns
    zero exactly when a configuration is found, all sources hold programs, and the
    check is off or all their functions are clear. With a configuration, a run whose
    files are UTF-8 comes to an outcome exactly when all paths can be opened, and
    shows the reports of the sources in the order of the arguments. -/
theorem run_exit_zero_iff (limits : Json.Limits) (bound : Option Int)
    (hparse : Options.parse args = .run o)
    (hutf8 : ∀ octets content, read octets = .ok content → content.toByteArray.IsValidUTF8) :
    ((∃ out, run limits read bound args = .done out ∧ out.exit = 0) ↔
      ∃ c, o.Resolves limits read c ∧ ∀ path ∈ o.paths, ∃ p, Parses read path p ∧
        (c.enabled = false ∨ ∀ f ∈ p.functions, Clear c bound f)) ∧
    o.Asked args ∧ o.sources.Sublist args ∧
    ∀ c, o.Resolves limits read c →
      ((∃ out, run limits read bound args = .done out) ↔
        ∀ path ∈ o.paths, ∃ octets, Opens path octets) ∧
      ∀ out, run limits read bound args = .done out → ∃ reports,
        List.Forall₂ (SourceReport read c bound) o.paths reports ∧
        out.Shows o (labelled o.paths reports) := by
  have hasked := (Options.asked_of_parse hparse).1
  refine ⟨?_, hasked, hasked.sources, fun c hc => ?_⟩
  · rcases run_cases limits read bound hparse with ⟨hnot, a, ha⟩ | ⟨-, out, hout, hcases⟩
    · refine iff_of_false (by simp [ha]) ?_
      rintro ⟨c, hc, hall⟩
      refine hnot (hc.legible_iff.2 fun path hpath => ?_)
      obtain ⟨p, hparses, -⟩ := hall path hpath
      exact hparses.legible
    · rcases hcases with ⟨hnone, hexit, -⟩ | ⟨c, reports, hc, hreports, hexit, -⟩
      · exact iff_of_false (by simp [hout, hexit]) fun ⟨c, hc, _⟩ => hnone c hc
      · have hknown := hc.severity hparse
        have hzero : out.exit = 0 ↔ Diagnostic.anyError reports.flatten = false := by
          rw [hexit]
          cases Diagnostic.anyError reports.flatten <;> simp
        have hone : (∃ out, run limits read bound args = .done out ∧ out.exit = 0) ↔
            out.exit = 0 := by
          simp [hout]
        rw [hone, hzero, anyError_flatten hreports fun path ds h => h.anyError_iff hknown]
        exact ⟨fun h => ⟨c, hc, h⟩, fun ⟨c', hc', h⟩ => hc'.unique hc ▸ h⟩
  · rcases run_cases limits read bound hparse with ⟨hnot, a, ha⟩ | ⟨hlegible, out, hout, hcases⟩
    · refine ⟨iff_of_false (by simp [ha]) fun hopens => hnot (hc.legible_iff.2 ?_), by simp [ha]⟩
      exact fun path hpath => (legible_iff_opens hutf8).2 (hopens path hpath)
    · refine ⟨iff_of_true ⟨out, hout⟩ fun path hpath => ?_, fun out' hout' => ?_⟩
      · exact (legible_iff_opens hutf8).1 (hc.legible_iff.1 hlegible path hpath)
      · cases hout.symm.trans hout'
        rcases hcases with ⟨hnone, -⟩ | ⟨c', reports, hc', hreports, -, hshows⟩
        · exact absurd hc (hnone c)
        · exact ⟨reports, hc.unique hc' ▸ hreports, hshows⟩

/-- What is read from a tree is one of its files. -/
theorem FileTree.read_ok {t : FileTree} {octets content : List UInt8}
    (h : t.read octets = .ok content) : ∃ names, t.entries.get? names = some (.file content) := by
  unfold FileTree.read at h
  split at h
  · cases h
  · obtain ⟨place, -, h⟩ := ok_of_bind h
    cases place with
    | above n => cases h
    | inside here =>
      simp only at h
      split at h
      · rename_i hfile
        cases h
        exact ⟨here, hfile⟩
      · cases h

theorem racingTree_utf8 {octets content : List UInt8} (h : racingTree.read octets = .ok content) :
    content.toByteArray.IsValidUTF8 := by
  obtain ⟨names, hnames⟩ := FileTree.read_ok h
  have hentries : racingTree.entries.entries =
      [([octetsOf "race.sir"], .file (octetsOf racingProgram))] := by decide +kernel
  have hmem := (Table.mem_entries_iff _ _ _).2 hnames
  rw [hentries, List.mem_singleton] at hmem
  cases hmem
  have hread : (Text.Utf8.readText (octetsOf racingProgram)).toOption.isSome = true := by
    decide +kernel
  exact Text.Utf8.readText_ok_iff.1 (exists_ok_of_isSome hread)

/-- A race that counts as a warning does not stand against the program. -/
theorem racing_warning_exit_zero :
    Options.parse ["--severity", "warning", "race.sir"] =
      .run { sources := ["race.sir"], severity := .given "warning" } ∧
    (∀ octets content, racingTree.read octets = .ok content →
      content.toByteArray.IsValidUTF8) ∧
    ∃ c, Options.Resolves ⟨991, 991⟩ racingTree.read
      { sources := ["race.sir"], severity := .given "warning" } c ∧
      ∃ p, Parses racingTree.read "race.sir" p ∧
        (c.enabled = false ∨ ∀ f ∈ p.functions, Clear c none f) := by
  have hparse : Options.parse ["--severity", "warning", "race.sir"] =
      .run { sources := ["race.sir"], severity := .given "warning" } := by decide +kernel
  have hutf8 : ∀ octets content, racingTree.read octets = .ok content →
      content.toByteArray.IsValidUTF8 := fun _ _ => racingTree_utf8
  have hrun : run ⟨991, 991⟩ racingTree.read none ["--severity", "warning", "race.sir"] =
      .done ⟨0, "",
      "race.sir:6:3: warning: sending value 'x' of non-sendable type 'Box' from 'main' to 'C' " ++
      "via 'C.add' risks causing data races\n" ++
      "  race.sir:7:3: note: read of 'x' here could race with the use in 'C.add'\n"⟩ := by
    decide +kernel
  obtain ⟨c, hc, hall⟩ := (run_exit_zero_iff ⟨991, 991⟩ none hparse hutf8).1.1 ⟨_, hrun, rfl⟩
  have hpath : ("race.sir" : Text) ∈
      Options.paths { sources := ["race.sir"], severity := .given "warning" } := by decide +kernel
  exact ⟨hparse, hutf8, c, hc, hall _ hpath⟩

/-- A path with a null character ends the run without a report on either source,
    although all files are UTF-8. -/
theorem null_path_ends_run :
    Options.parse ["race.sir", "a\x00b.sir"] = .run { sources := ["race.sir", "a\x00b.sir"] } ∧
    (∀ octets content, racingTree.read octets = .ok content →
      content.toByteArray.IsValidUTF8) ∧
    run ⟨991, 991⟩ racingTree.read none ["race.sir", "a\x00b.sir"] = .aborted .nullInPath :=
  ⟨by decide +kernel, fun _ _ => racingTree_utf8, by decide +kernel⟩

end Sendability.Command
