/-
  What a run reports.

  `SourceReport` and `FunctionReport` say which diagnostics belong to a source and
  to a function: those of its check, or one failure of the phase in which it was
  given up. A run comes to an outcome exactly when nothing it names is illegible;
  it then shows one failure of the configuration, or the reports of all sources
  in the order of the arguments, whatever became of the others (`run_cases`).
-/

import Mathlib.Data.List.Forall2
import Sendability.Proofs.Invocation
import Sendability.Proofs.Safety

namespace Sendability.Command

variable {limits limits' : Json.Limits} {read : FileReader} {o : Options} {config : Config}
  {bound : Option Int} {path : Text} {ps args : List Text}

/-! ## Reports -/

/-- A failure in some phase: an error without code or notes. -/
def failure (phase message : Text) (span : Span) : Diagnostic :=
  { message, phase := some phase, span }

@[simp] theorem isError_failure (phase message : Text) (span : Span) :
    (failure phase message span).isError = true := by
  simp [failure, Diagnostic.isError]

/-- The diagnostics that belong to a function: those of its check, or one failure
    when it is malformed or its analysis did not converge. -/
inductive FunctionReport (config : Config) (bound : Option Int) (f : Func) :
    List Diagnostic → Prop where
  | checked {r : CheckResult}
      (hcheck : f.check config (Classifier.asWritten (σ := Unit)) () bound = .ok (r, ())) :
      FunctionReport config bound f r.diagnostics
  | malformed {m : Malformed} (henabled : config.enabled = true)
      (hinvalid : f.validate = .error m) :
      FunctionReport config bound f
        [failure "ir" ("in function '" ++ f.name ++ "': " ++ m.message) m.span]
  | diverged {limit : Int} (henabled : config.enabled = true) (hvalid : f.validate = .ok ())
      (hdiverged : f.solve (Classifier.asWritten (σ := Unit)) () (bound.getD f.iterationBound) =
        .error (.diverged f.name limit)) :
      FunctionReport config bound f
        [failure checkPhase (Obstacle.diverged f.name limit).message f.loc]

/-- A source holds the text of a program. -/
def Parses (read : FileReader) (path : Text) (p : Program) : Prop :=
  ∃ text, Spells read path text ∧ Program.parse (.ofChars text) (some path) = .ok p

/-- The diagnostics that belong to a source: the reports of its functions, or one
    failure when it cannot be read or parsed. -/
inductive SourceReport (read : FileReader) (config : Config) (bound : Option Int) (path : Text) :
    List Diagnostic → Prop where
  | unreadable {f : FileFault} (hread : Unreadable read path f) :
      SourceReport read config bound path
        [failure "parser" ("cannot read '" ++ path ++ "': " ++ f.message path)
          { file := some path }]
  | unparsable {text : List Char} {f : Source.Fault} (htext : Spells read path text)
      (hparse : Program.parse (.ofChars text) (some path) = .error f) :
      SourceReport read config bound path [failure "parser" f.message (f.span (some path))]
  | checked {p : Program} {reports : List (List Diagnostic)} (hparses : Parses read path p)
      (hreports : List.Forall₂ (FunctionReport config bound) p.functions reports) :
      SourceReport read config bound path reports.flatten

theorem Parses.legible {p : Program} (h : Parses read path p) : Legible read path := by
  obtain ⟨text, htext, -⟩ := h
  exact legible_iff.2 (.inr ⟨text, htext⟩)

/-- A source without a program has exactly one diagnostic, of the parser. -/
theorem SourceReport.eq_failure {ds : List Diagnostic} (h : SourceReport read config bound path ds)
    (hnone : ∀ p, ¬ Parses read path p) :
    ∃ message span, ds = [failure "parser" message span] := by
  cases h with
  | unreadable => exact ⟨_, _, rfl⟩
  | unparsable => exact ⟨_, _, rfl⟩
  | checked hparses => exact absurd hparses (hnone _)

/-! ## Functions and sources -/

/-- Why a check fails: the function is malformed or its analysis diverges. -/
theorem check_error {f : Func} {e : CheckFault}
    (h : f.check config (Classifier.asWritten (σ := Unit)) () bound = .error e) :
    config.enabled = true ∧ ((∃ m, f.validate = .error m ∧ e = .malformed m) ∨
      f.validate = .ok () ∧ ∃ limit, e = .obstacle (.diverged f.name limit) ∧
        f.solve (Classifier.asWritten (σ := Unit)) () (bound.getD f.iterationBound) =
          .error (.diverged f.name limit)) := by
  unfold Func.check at h
  split at h
  · rename_i henabled
    refine ⟨henabled, ?_⟩
    split at h
    · rename_i m hinvalid
      cases h
      exact .inl ⟨m, hinvalid, rfl⟩
    · rename_i hvalid
      refine .inr ⟨hvalid, ?_⟩
      rcases Func.solve_sound hvalid Classifier.asWritten () (bound.getD f.iterationBound) with
        ⟨r, hok⟩ | hdiverged
      · rw [hok] at h
        cases h
      · rw [hdiverged] at h
        cases h
        exact ⟨_, rfl, hdiverged⟩
  · cases h

/-- What is reported on a function belongs to it. -/
theorem functionReport_check (config : Config) (bound : Option Int) (f : Func) :
    FunctionReport config bound f (functionDiagnostics f
      ((f.check config (Classifier.asWritten (σ := Unit)) () bound).map Prod.fst)) := by
  cases hcheck : f.check config (Classifier.asWritten (σ := Unit)) () bound with
  | ok r => exact .checked hcheck
  | error e =>
    obtain ⟨henabled, ⟨m, hinvalid, rfl⟩ | ⟨hvalid, limit, rfl, hdiverged⟩⟩ := check_error hcheck
    · exact .malformed henabled hinvalid
    · exact .diverged henabled hvalid hdiverged

/-- The reports on a program are those on its functions, in order. -/
theorem checkProgram_reports (config : Config) (bound : Option Int) (p : Program) :
    ∃ reports, List.Forall₂ (FunctionReport config bound) p.functions reports ∧
      (checkProgram config bound p).diagnostics = reports.flatten := by
  refine ⟨p.functions.map fun f => functionDiagnostics f
    ((f.check config (Classifier.asWritten (σ := Unit)) () bound).map Prod.fst), ?_, ?_⟩
  · rw [List.forall₂_map_right_iff, List.forall₂_same]
    exact fun f _ => functionReport_check config bound f
  · simp only [checkProgram, List.flatMap_def, List.map_map]
    rfl

/-- A legible source is reported on. -/
theorem checkSource_spec (config : Config) (bound : Option Int) (h : Legible read path) :
    ∃ r, checkSource read config bound path = .ok r ∧
      SourceReport read config bound path r.diagnostics := by
  rcases legible_iff.1 h with ⟨f, hf⟩ | ⟨text, htext⟩
  · refine ⟨⟨_, [.reading path]⟩, ?_, .unreadable hf⟩
    simp only [checkSource, hf.readOctets, bind, Except.bind, pure, Except.pure]
    rfl
  · obtain ⟨content, hoctets, hcontent⟩ := htext.readOctets
    cases hparse : Program.parse (.ofChars text) (some path) with
    | error f =>
      refine ⟨⟨_, [.reading path]⟩, ?_, .unparsable htext hparse⟩
      simp only [checkSource, hoctets, hcontent, hparse, bind, Except.bind, pure, Except.pure]
      rfl
    | ok p =>
      obtain ⟨reports, hreports, hflatten⟩ := checkProgram_reports config bound p
      refine ⟨⟨(checkProgram config bound p).diagnostics,
        .reading path :: (checkProgram config bound p).events⟩, ?_, ?_⟩
      · simp only [checkSource, hoctets, hcontent, hparse, bind, Except.bind, pure, Except.pure]
        rfl
      · rw [hflatten]
        exact .checked ⟨text, htext, hparse⟩ hreports

theorem checkSource_of_not_legible (config : Config) (bound : Option Int)
    (h : ¬ Legible read path) :
    ∃ a, checkSource read config bound path = .error a := by
  rcases aborts_of_not_legible h with ⟨a, hoctets⟩ | ⟨content, a, hoctets, htext⟩
  · exact ⟨a, by simp only [checkSource, hoctets, bind, Except.bind]⟩
  · exact ⟨a, by simp only [checkSource, hoctets, htext, bind, Except.bind]⟩

/-- The diagnostics of some sources, each with its source. -/
def labelled (paths : List Text) (reports : List (List Diagnostic)) : List (Text × Diagnostic) :=
  (paths.zip reports).flatMap fun r => r.2.map (r.1, ·)

/-- Legible sources are all reported on, in order; the induction is on them. -/
theorem checkSources_spec (config : Config) (bound : Option Int)
    (h : ∀ path ∈ ps, Legible read path) :
    ∃ events reports, List.Forall₂ (SourceReport read config bound) ps reports ∧
      checkSources read config bound ps = .ok (labelled ps reports, events) := by
  induction ps with
  | nil => exact ⟨[], [], .nil, rfl⟩
  | cons path rest ih =>
    obtain ⟨r, hr, hreport⟩ := checkSource_spec config bound (h path (by simp))
    obtain ⟨events, reports, hreports, hrest⟩ := ih fun p hp => h p (by simp [hp])
    refine ⟨r.events ++ events, r.diagnostics :: reports, .cons hreport hreports, ?_⟩
    simp only [checkSources, hr, hrest, bind, Except.bind, pure, Except.pure]
    rfl

theorem checkSources_of_not_legible (config : Config) (bound : Option Int) (hpath : path ∈ ps)
    (h : ¬ Legible read path) :
    ∃ a, checkSources read config bound ps = .error a := by
  induction ps with
  | nil => cases hpath
  | cons first rest ih =>
    cases hfirst : checkSource read config bound first with
    | error a => exact ⟨a, by simp only [checkSources, hfirst, bind, Except.bind]⟩
    | ok r =>
      have hrest : path ∈ rest := by
        rcases List.mem_cons.1 hpath with rfl | hrest
        · obtain ⟨a, ha⟩ := checkSource_of_not_legible config bound h
          rw [hfirst] at ha
          cases ha
        · exact hrest
      obtain ⟨a, ha⟩ := ih hrest
      exact ⟨a, by simp only [checkSources, hfirst, ha, bind, Except.bind]⟩

theorem map_snd_labelled {R : Text → List Diagnostic → Prop} {reports : List (List Diagnostic)}
    (h : List.Forall₂ R ps reports) :
    (labelled ps reports).map Prod.snd = reports.flatten := by
  induction h with
  | nil => rfl
  | cons _ _ ih =>
    simp only [labelled, List.zip_cons_cons, List.flatMap_cons, List.map_append, List.map_map,
      List.flatten_cons] at ih ⊢
    rw [ih]
    congr 1
    exact List.map_id _

/-! ## Runs -/

/-- What an outcome shows of some diagnostics: a document on standard output, or
    their texts at the end of standard error. Reports of progress stand before them
    on standard error; unless all are asked for they are errors. -/
def Outcome.Shows (out : Outcome) (o : Options) (results : List (Text × Diagnostic)) : Prop :=
  ∃ events : List Event, (∀ e ∈ events, o.verbose = true ∨ e.isError = true) ∧
    if o.json then
      out.stdout = (Json.object [("exit_code", .int out.exit),
        ("diagnostics", .arr (results.map fun r => diagnosticJson r.1 r.2))]).write ++ "\n" ∧
      out.stderr = Text.concat (events.map (·.line ++ "\n"))
    else
      out.stdout = "" ∧
      out.stderr = Text.concat (events.map (·.line ++ "\n")) ++
        Text.concat (results.map fun r => r.2.render r.1 ++ "\n")

/-- A report has the exit code that it was given, and shows its diagnostics. -/
theorem report_shows (o : Options) (exit : Nat) (events : List Event)
    (results : List (Text × Diagnostic)) :
    (report o.json exit events o.verbose results).exit = exit ∧
      (report o.json exit events o.verbose results).Shows o results := by
  have hlog : ∀ e ∈ events.filter fun e => o.verbose || e.isError,
      o.verbose = true ∨ e.isError = true := by
    intro e he
    rw [List.mem_filter, Bool.or_eq_true] at he
    exact he.2
  unfold report Outcome.Shows
  cases o.json with
  | true => exact ⟨rfl, _, hlog, rfl, rfl⟩
  | false => exact ⟨rfl, _, hlog, rfl, rfl⟩

/-- The paths of the sources, in the order of the arguments. -/
def Options.paths (o : Options) : List Text := o.sources.map pathOf

/-- Nothing that options name can end a run: neither the configuration nor, when
    there is one, a source. -/
structure Options.Legible (limits : Json.Limits) (read : FileReader) (o : Options) : Prop where
  config : o.Configurable limits read
  sources : ∀ c, o.Resolves limits read c → ∀ path ∈ o.paths, Command.Legible read path

/-- How a run ends: without an outcome when something is illegible, with one
    failure when there is no configuration, else with the reports of all sources. -/
theorem run_cases (limits : Json.Limits) (read : FileReader) (bound : Option Int)
    (hparse : Options.parse args = .run o) :
    (¬ o.Legible limits read ∧ ∃ a, run limits read bound args = .aborted a) ∨
    (o.Legible limits read ∧ ∃ out, run limits read bound args = .done out ∧
      (((∀ c, ¬ o.Resolves limits read c) ∧ out.exit = 1 ∧ ∃ message, out.Shows o
        [(o.configPath, failure "config" message { file := some o.configPath })]) ∨
      ∃ c reports, o.Resolves limits read c ∧
        List.Forall₂ (SourceReport read c bound) o.paths reports ∧
        out.exit = (if Diagnostic.anyError reports.flatten then 1 else 0) ∧
        out.Shows o (labelled o.paths reports))) := by
  by_cases hconfig : o.Configurable limits read
  · obtain ⟨r, hr⟩ := Options.resolve_isOk.2 hconfig
    cases r with
    | error f =>
      have hnone : ∀ c, ¬ o.Resolves limits read c := fun c hc => by
        rw [Options.resolve_ok_iff.2 hc] at hr
        cases hr
      obtain ⟨hexit, hshows⟩ := report_shows o 1 []
        [(o.configPath, configDiagnostic o.configPath f)]
      refine .inr ⟨⟨hconfig, fun c hc => absurd hc (hnone c)⟩, _, ?_,
        .inl ⟨hnone, hexit, f.message, hshows⟩⟩
      simp only [run, hparse, execute, hr, bind, Except.bind, pure, Except.pure]
    | ok c =>
      have hc : o.Resolves limits read c := Options.resolve_ok_iff.1 hr
      by_cases hsources : ∀ path ∈ o.paths, Command.Legible read path
      · obtain ⟨events, reports, hreports, hok⟩ := checkSources_spec c bound hsources
        obtain ⟨hexit, hshows⟩ := report_shows o
          (if Diagnostic.anyError reports.flatten then 1 else 0) events (labelled o.paths reports)
        refine .inr ⟨⟨hconfig, fun c' hc' path => ?_⟩, _, ?_,
          .inr ⟨c, reports, hc, hreports, hexit, hshows⟩⟩
        · exact hsources path
        · have hok : checkSources read c bound (o.sources.map fun s => (Path.ofText s).render) =
            .ok (labelled o.paths reports, events) := hok
          simp only [run, hparse, execute, hr, hok, map_snd_labelled hreports, bind, Except.bind,
            pure, Except.pure]
      · obtain ⟨path, hpath⟩ := not_forall.1 hsources
        obtain ⟨hmem, hnot⟩ := Classical.not_imp.1 hpath
        obtain ⟨a, ha⟩ := checkSources_of_not_legible c bound hmem hnot
        refine .inl ⟨fun h => hnot (h.sources c hc path hmem), a, ?_⟩
        have ha : checkSources read c bound (o.sources.map fun s => (Path.ofText s).render) =
          .error a := ha
        simp only [run, hparse, execute, hr, ha, bind, Except.bind]
  · have hnot : ¬ ∃ r, o.resolve limits read = .ok r := fun h =>
      hconfig (Options.resolve_isOk.1 h)
    cases hr : o.resolve limits read with
    | ok r => exact absurd ⟨r, hr⟩ hnot
    | error a =>
      refine .inl ⟨fun h => hconfig h.config, a, ?_⟩
      simp only [run, hparse, execute, hr, bind, Except.bind]

/-- The limits matter for nothing but the configuration. -/
theorem run_congr (hparse : Options.parse args = .run o)
    (h : o.resolve limits' read = o.resolve limits read) :
    run limits' read bound args = run limits read bound args := by
  simp only [run, hparse, execute, h]

/-- A run without anything illegible ends alike on a larger machine. -/
theorem run_of_le (hparse : Options.parse args = .run o) (h : o.Legible limits read)
    (hread : limits.read ≤ limits'.read) (hshown : limits.shown ≤ limits'.shown) :
    run limits' read bound args = run limits read bound args :=
  run_congr hparse (Options.resolve_of_le hread hshown h.config)

/-- On machines that are large enough a run ends alike. -/
theorem run_of_room (read : FileReader) (bound : Option Int)
    (hparse : Options.parse args = .run o) :
    ∃ levels, ∀ limits : Json.Limits, levels ≤ limits.read → levels ≤ limits.shown →
      run limits read bound args = run ⟨levels, levels⟩ read bound args := by
  obtain ⟨levels, hlevels⟩ := Options.resolve_of_room read o
  exact ⟨levels, fun limits hread hshown => run_congr hparse (hlevels limits hread hshown)⟩

/-- Every failure is accounted for. A run comes to an outcome exactly when nothing
    it names is illegible. Without a configuration it shows one failure of that
    phase; with one it shows the reports of all sources in order, and a source
    that cannot be read or parsed adds one failure of the parser to them. The limits
    of the machine matter only where they are exceeded. -/
theorem run_accounts_for_failures (limits : Json.Limits) (read : FileReader) (bound : Option Int)
    (hparse : Options.parse args = .run o) :
    o.Asked args ∧
    ((∃ out, run limits read bound args = .done out) ↔ o.Legible limits read) ∧
    (∃ levels, ∀ limits' : Json.Limits, levels ≤ limits'.read → levels ≤ limits'.shown →
      run limits' read bound args = run ⟨levels, levels⟩ read bound args) ∧
    ∀ out, run limits read bound args = .done out →
      (∀ limits' : Json.Limits, limits.read ≤ limits'.read → limits.shown ≤ limits'.shown →
        run limits' read bound args = .done out) ∧
      (out.exit = 0 ∨ out.exit = 1) ∧
      ((∀ c, ¬ o.Resolves limits read c) → out.exit = 1 ∧ ∃ message, out.Shows o
        [(o.configPath, failure "config" message { file := some o.configPath })]) ∧
      ∀ c, o.Resolves limits read c → ∃ reports,
        List.Forall₂ (fun path ds => SourceReport read c bound path ds ∧
          ((∀ p, ¬ Parses read path p) → ∃ message span, ds = [failure "parser" message span]))
          o.paths reports ∧
        out.Shows o (labelled o.paths reports) := by
  refine ⟨(Options.asked_of_parse hparse).1, ?_⟩
  rcases run_cases limits read bound hparse with
    ⟨hnot, a, ha⟩ | ⟨hlegible, out, hout, hcases⟩
  · exact ⟨by simp [ha, hnot], run_of_room read bound hparse, by simp [ha]⟩
  · refine ⟨⟨fun _ => hlegible, fun _ => ⟨out, hout⟩⟩, run_of_room read bound hparse,
      fun out' hout' => ⟨fun limits' hread hshown => ?_, ?_⟩⟩
    · rw [run_of_le hparse hlegible hread hshown, hout']
    cases hout.symm.trans hout'
    rcases hcases with ⟨hnone, hexit, hshows⟩ | ⟨c, reports, hc, hreports, hexit, hshows⟩
    · exact ⟨.inr hexit, fun _ => ⟨hexit, hshows⟩, fun c hc => absurd hc (hnone c)⟩
    · refine ⟨?_, fun hnone => absurd hc (hnone c), fun c' hc' => ⟨reports, ?_, hshows⟩⟩
      · rw [hexit]
        split
        · exact .inr rfl
        · exact .inl rfl
      · rw [hc'.unique hc]
        exact hreports.imp fun _ _ h => ⟨h, h.eq_failure⟩

/-- The octets of a text of ASCII characters. -/
def octetsOf (s : String) : List UInt8 := s.toList.map fun c => UInt8.ofNat c.toNat

/-- A program that uses a value after handing it over. -/
def racingProgram : String :=
  "type Int sendable\n\nfunc f(n: Int) in main \x7b\n@entry:\n  x = init Box()\n" ++
  "  call C.add(x) on C\n  use x\n  return\n\x7d\n"

/-- A directory with that program. -/
def racingTree : FileTree :=
  ({} : FileTree).add (octetsOf "race.sir") (.file (octetsOf racingProgram))

/-- The lines on the program. -/
def racingLines : Text :=
  "race.sir:6:3: error: sending value 'x' of non-sendable type 'Box' from 'main' to 'C' via " ++
  "'C.add' risks causing data races\n" ++
  "  race.sir:7:3: note: read of 'x' here could race with the use in 'C.add'\n"

/-- A source that is not there leaves the report of the other as it is. -/
theorem racing_accounted_for :
    Options.parse ["race.sir", "gone.sir"] = .run { sources := ["race.sir", "gone.sir"] } ∧
    run ⟨991, 991⟩ racingTree.read none ["race.sir", "gone.sir"] = .done ⟨1, "", racingLines ++
      "gone.sir: error: cannot read 'gone.sir': [Errno 2] No such file or directory: " ++
      "'gone.sir'\n"⟩ ∧
    Options.Legible ⟨991, 991⟩ racingTree.read { sources := ["race.sir", "gone.sir"] } := by
  have hparse : Options.parse ["race.sir", "gone.sir"] =
      .run { sources := ["race.sir", "gone.sir"] } := by decide +kernel
  have hrun : run ⟨991, 991⟩ racingTree.read none ["race.sir", "gone.sir"] =
      .done ⟨1, "", racingLines ++
        "gone.sir: error: cannot read 'gone.sir': [Errno 2] No such file or directory: " ++
        "'gone.sir'\n"⟩ := by decide +kernel
  have haccounts := run_accounts_for_failures ⟨991, 991⟩ racingTree.read none hparse
  exact ⟨hparse, hrun, haccounts.2.1.1 ⟨_, hrun⟩⟩

/-- A source that is not UTF-8 takes the report of the other with it: there is no
    outcome, although the configuration is fine. -/
theorem undecodable_source_ends_run :
    Options.parse ["race.sir", "bad.sir"] = .run { sources := ["race.sir", "bad.sir"] } ∧
    run ⟨991, 991⟩ (racingTree.add (octetsOf "bad.sir") (.file [0xff])).read none
      ["race.sir", "bad.sir"] = .aborted (.undecodable ⟨.invalidStart, 0xff, 0, 1⟩) := by
  decide +kernel

end Sendability.Command
