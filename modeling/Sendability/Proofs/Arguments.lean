/-
  What arguments ask for.

  Classified arguments make `Request`s: options with their values, and sources.
  The options that come of accepted arguments are read off the requests
  (`Options.asked_of_parse`): a switch is on if it was asked for at all, of several
  values the last one counts, and the sources are the plain arguments that are not
  values. An option is recognised by any start of its word that no other option
  shares (`Arg.classify_word`).

  Taking arguments in order keeps `Taking.Holds`: the options so far are those of
  the requests so far, as long as nothing is left over.
-/

import Mathlib.Data.List.TakeWhile
import Sendability.Command.Options
import Sendability.Proofs.FlowGraph

namespace Sendability.Command

variable {args : List Text} {l run rest : List Arg} {o : Options}

-- ============================================================================
-- What an argument is
-- ============================================================================

/-- The first equal sign divides a word from its value. -/
theorem splitValue_of_not_mem {start : List CodePoint} (h : equal ∉ start) :
    splitValue start = (start, none) ∧
      ∀ value, splitValue (start ++ equal :: value) = (start, some ⟨value⟩) := by
  have hall : ∀ c ∈ start, decide (c ≠ equal) = true := by
    intro c hc
    rw [decide_eq_true_iff]
    exact ne_of_mem_of_not_mem hc h
  refine ⟨?_, fun value => ?_⟩
  · rw [splitValue, List.dropWhile_eq_nil_iff.2 hall]
  · unfold splitValue
    rw [List.dropWhile_append_of_pos hall, List.takeWhile_append_of_pos hall]
    simp

/-- The start of a word that no other option shares is enough to recognise an
    option, with or without a value attached to it. -/
theorem Arg.classify_word {f : Flag} {start : List CodePoint}
    (h : Flag.startingWith (dash :: dash :: start) = [f]) (hequal : equal ∉ start) :
    Arg.classify ⟨dash :: dash :: start⟩ = .ok (.word f none) ∧
      ∀ value : Text, Arg.classify ⟨dash :: dash :: start ++ equal :: value.points⟩ =
        .ok (.word f (some value)) := by
  have hdash : equal ≠ dash := by decide
  have hword : equal ∉ dash :: dash :: start := by
    rw [List.mem_cons, List.mem_cons]
    exact not_or.2 ⟨hdash, not_or.2 ⟨hdash, hequal⟩⟩
  obtain ⟨hnone, hsome⟩ := splitValue_of_not_mem hword
  refine ⟨?_, fun value => ?_⟩
  · simp only [Arg.classify, hnone, h]
    rfl
  · have hsome := hsome value.points
    rw [List.cons_append, List.cons_append] at hsome ⊢
    simp only [Arg.classify, hsome, h]
    rfl

-- every option has such a start: its word
example (f : Flag) : Flag.startingWith (Text.ofString f.word).points = [f] := by
  cases f <;> decide

/-- What an argument before the double dash can be: itself, or an option. -/
theorem Arg.classify_cases {arg : Text} {a : Arg} (h : Arg.classify arg = .ok a) :
    a = .plain arg ∨ a = .unknown arg ∨ (∃ f attached, a = .word f attached) ∨
      ∃ f attached, a = .letter f attached := by
  have hdashed : Arg.ofDashed arg = .plain arg ∨ Arg.ofDashed arg = .unknown arg := by
    unfold Arg.ofDashed
    split
    · exact .inl rfl
    · exact .inr rfl
  unfold Arg.classify at h
  split at h
  · dsimp only at h
    split at h
    · cases h
      exact .inr (.inr (.inl ⟨_, _, rfl⟩))
    · cases h
      exact hdashed.imp_right .inl
    · cases h
  · split at h
    · cases h
      exact .inr (.inr (.inr ⟨_, _, rfl⟩))
    · cases h
      exact hdashed.imp_right .inl
  · cases h
    exact .inl rfl

/-- What each of some arguments is: all are plain after the double dash. -/
inductive Arg.Classified : List Text → List Arg → Prop where
  | nil : Classified [] []
  | divider (rest : List Text) : Classified ("--" :: rest) (.divider :: rest.map .plain)
  | cons {arg : Text} {a : Arg} {args : List Text} {l : List Arg} (hne : arg ≠ "--")
      (ha : Arg.classify arg = .ok a) (hrest : Classified args l) :
      Classified (arg :: args) (a :: l)

/-- Arguments are classified one by one up to the double dash. -/
theorem Arg.classified_of_classifyAll (h : Arg.classifyAll args = .ok l) :
    Arg.Classified args l := by
  induction args generalizing l with
  | nil =>
    cases h
    exact .nil
  | cons arg rest ih =>
    unfold Arg.classifyAll at h
    split at h
    · rename_i hdivider
      cases h
      rw [hdivider]
      exact .divider rest
    · rename_i hne
      obtain ⟨a, ha, h⟩ := ok_of_bind h
      obtain ⟨others, hothers, h⟩ := ok_of_bind h
      cases h
      exact .cons hne ha (ih hothers)

theorem Arg.Classified.length_eq (h : Arg.Classified args l) : l.length = args.length := by
  induction h with
  | nil => rfl
  | divider rest => simp
  | cons _ _ _ ih => simp [ih]

/-- The source that an argument can be. -/
def Arg.source? : Arg → Option Text
  | .plain s => some s
  | .divider | .word .. | .letter .. | .unknown _ => none

/-- What can be a source is an argument as it stands. -/
theorem Arg.Classified.sublist (h : Arg.Classified args l) :
    (l.filterMap Arg.source?).Sublist args := by
  induction h with
  | nil => exact List.Sublist.refl []
  | divider rest =>
    have hrest : (rest.map Arg.plain).filterMap Arg.source? = rest := by
      rw [List.filterMap_map]
      exact List.filterMap_some
    rw [List.filterMap_cons_none rfl, hrest]
    exact List.sublist_cons_self _ rest
  | cons _ ha _ ih =>
    rcases Arg.classify_cases ha with rfl | rfl | ⟨f, attached, rfl⟩ | ⟨f, attached, rfl⟩
    · rw [List.filterMap_cons_some (f := Arg.source?) rfl]
      exact ih.cons_cons _
    all_goals
      rw [List.filterMap_cons_none rfl]
      exact ih.cons _

/-- No plain argument before the double dash is one, and all after it are plain. -/
def Arg.Divided : List Arg → Prop
  | [] => True
  | .divider :: rest => ∀ a ∈ rest, ∃ s, a = .plain s
  | a :: rest => a ≠ .plain "--" ∧ Divided rest

theorem Arg.Classified.divided (h : Arg.Classified args l) : Arg.Divided l := by
  induction h with
  | nil => trivial
  | divider rest =>
    intro a ha
    obtain ⟨s, -, rfl⟩ := List.mem_map.1 ha
    exact ⟨s, rfl⟩
  | cons hne ha _ ih =>
    rcases Arg.classify_cases ha with rfl | rfl | ⟨f, attached, rfl⟩ | ⟨f, attached, rfl⟩
    · exact ⟨fun heq => hne (Arg.plain.inj heq), ih⟩
    all_goals exact ⟨nofun, ih⟩

/-- What stands behind a run of plain arguments is divided as well. -/
theorem Arg.Divided.dropWhile (h : Arg.Divided l) :
    Arg.Divided (l.dropWhile (·.plain?.isSome)) := by
  induction l with
  | nil => exact h
  | cons a rest ih =>
    cases a with
    | plain s => exact ih h.2
    | divider =>
      have hrest : rest.dropWhile (·.plain?.isSome) = [] := by
        rw [List.dropWhile_eq_nil_iff]
        intro a ha
        obtain ⟨s, rfl⟩ := h a ha
        rfl
      show Arg.Divided (rest.dropWhile (·.plain?.isSome))
      rw [hrest]
      trivial
    | word | letter | unknown => exact h

/-- The sources of a run of arguments are its plain ones: what is left out is the
    double dash that divides it. -/
theorem sourcesOf_eq (h : Arg.Divided (run ++ rest))
    (hrun : ∀ a ∈ run, a.plain?.isSome = true) : sourcesOf run = run.filterMap Arg.source? := by
  induction run with
  | nil => rfl
  | cons a run ih =>
    have hrest : ∀ a ∈ run, a.plain?.isSome = true := fun a ha => hrun a (List.mem_cons_of_mem _ ha)
    unfold sourcesOf at ih ⊢
    cases a with
    | plain s =>
      have hs : s ≠ "--" := fun hs => h.1 (congrArg Arg.plain hs)
      simp [Arg.plain?, Arg.source?, hs, ih h.2 hrest]
    | divider =>
      have hplain : ∀ a ∈ run, a.plain? = a.source? := by
        intro a ha
        obtain ⟨s, rfl⟩ := h a (List.mem_append_left _ ha)
        rfl
      have hdashes : Arg.divider.plain? = some "--" := rfl
      rw [List.filterMap_cons_some hdashes, List.erase_cons_head, List.filterMap_cons_none rfl]
      exact List.filterMap_congr hplain
    | word | letter | unknown =>
      exact absurd (hrun _ (List.mem_cons_self ..)) (by simp [Arg.plain?])

-- ============================================================================
-- Requests
-- ============================================================================

/-- What is asked for: an option with its value, or a source. -/
inductive Request where
  | option (flag : Flag) (value : Text)
  | source (text : Text)

namespace Request

variable {rs : List Request}

/-- The value with which an option is asked for. -/
def value? (flag : Flag) : Request → Option Text
  | .option f value => if f = flag then some value else none
  | .source _ => none

/-- The source that is asked for. -/
def source? : Request → Option Text
  | .option .. => none
  | .source text => some text

/-- The values with which an option is asked for, in order. -/
def values (flag : Flag) (rs : List Request) : List Text := rs.filterMap (value? flag)

/-- The sources that are asked for, in order. -/
def sources (rs : List Request) : List Text := rs.filterMap source?

/-- What classified arguments ask for. The plain argument behind an option that
    takes a value is that value. -/
def ofArgs : List Arg → List Request
  | [] => []
  | .plain s :: rest => .source s :: ofArgs rest
  | .divider :: rest => ofArgs rest
  | .unknown _ :: rest => ofArgs rest
  | .letter f attached :: rest =>
    ((lettersOf f attached).toOption.getD []).map (.option · "") ++ ofArgs rest
  | .word f (some value) :: rest => .option f value :: ofArgs rest
  | .word f none :: rest =>
    match f.takesValue, rest with
    | true, .plain value :: rest => .option f value :: ofArgs rest
    | _, rest => .option f "" :: ofArgs rest

/-- What several values of an option say: the last one counts. -/
def setting (values : List Text) : Setting := values.getLast?.elim .absent Setting.ofValue

/-- The options that are asked for. A switch is on if it is asked for at all. -/
def options (rs : List Request) : Options where
  sources := sources rs
  json := !(values .json rs).isEmpty
  config := setting (values .config rs)
  disable := !(values .disable rs).isEmpty
  severity := setting (values .severity rs)
  verbose := !(values .verbose rs).isEmpty

theorem values_concat (flag f : Flag) (value : Text) (rs : List Request) :
    values flag (rs ++ [.option f value]) =
      values flag rs ++ if f = flag then [value] else [] := by
  rw [values, List.filterMap_append]
  congr 1
  by_cases h : f = flag <;> simp [value?, h]

/-- Asking for sources leaves the options as they are. -/
theorem options_sources (rs : List Request) (ss : List Text) :
    options (rs ++ ss.map .source) = { options rs with sources := sources rs ++ ss } := by
  have hvalues : ∀ f, values f (rs ++ ss.map .source) = values f rs := by
    intro f
    simp [values, List.filterMap_append, List.filterMap_map, value?]
  have hsources : sources (rs ++ ss.map .source) = sources rs ++ ss := by
    rw [sources, List.filterMap_append, List.filterMap_map]
    exact congrArg _ List.filterMap_some
  simp only [options, hvalues, hsources]

/-- A run of plain arguments asks for its sources. -/
theorem ofArgs_append (hrun : ∀ a ∈ run, a.plain?.isSome = true) (rest : List Arg) :
    ofArgs (run ++ rest) = (run.filterMap Arg.source?).map .source ++ ofArgs rest := by
  induction run with
  | nil => rfl
  | cons a run ih =>
    have ih := ih fun a ha => hrun a (List.mem_cons_of_mem _ ha)
    cases a with
    | plain s => simp [ofArgs, Arg.source?, ih]
    | divider =>
      rw [List.filterMap_cons_none rfl, ← ih]
      rfl
    | word | letter | unknown =>
      exact absurd (hrun _ (List.mem_cons_self ..)) (by simp [Arg.plain?])

/-- The sources are plain arguments, in order. -/
theorem sources_ofArgs (l : List Arg) :
    (sources (ofArgs l)).Sublist (l.filterMap Arg.source?) := by
  have hflags : ∀ fs : List Flag, sources (fs.map (.option · "")) = [] := by
    intro fs
    simp [sources, List.filterMap_map, source?]
  fun_induction ofArgs l with
  | case1 => exact List.Sublist.refl []
  | case2 s rest ih => exact ih.cons_cons s
  | case3 rest ih => exact ih
  | case4 s rest ih => exact ih
  | case5 f attached rest ih =>
    rw [sources, List.filterMap_append, ← sources, hflags]
    exact ih
  | case6 f value rest ih => exact ih
  | case7 f value rest _ ih => exact ih.cons value
  | case8 f rest _ ih => exact ih

end Request

/-- Options after one more option was carried out. -/
def Options.set (o : Options) (flag : Flag) (value : Text) : Options :=
  match flag with
  | .help => o
  | .json => { o with json := true }
  | .config => { o with config := .ofValue value }
  | .disable => { o with disable := true }
  | .severity => { o with severity := .ofValue value }
  | .verbose => { o with verbose := true }

/-- Asking for one more option sets it. -/
theorem Request.options_concat (rs : List Request) (f : Flag) (value : Text) :
    options (rs ++ [.option f value]) = (options rs).set f value := by
  cases f <;> simp [options, Options.set, values_concat, sources, source?, setting]

-- ============================================================================
-- Taking arguments
-- ============================================================================

/-- Taking arguments has come to what some requests ask for, as long as nothing is
    left over, and to a known severity. -/
structure Taking.Holds (t : Taking) (rs : List Request) : Prop where
  options : t.options = { Request.options rs with sources := t.options.sources }
  severity : ∀ v, t.options.severity = .given v → v ∈ severities
  sources : t.extras = [] → t.options.sources = Request.sources rs
  unseen : t.extras = [] → t.sourcesSeen = false → Request.sources rs = []

/-- Taking arguments comes to what some requests ask for, or to an ending other
    than a run. -/
def Taking.Settles (rs : List Request) : Except Parsed Taking → Prop
  | .ok t => t.Holds rs
  | .error p => ∀ o, p ≠ .run o

namespace Taking

variable {t : Taking} {rs rs' : List Request}

/-- Taking arguments goes on from what was settled. -/
theorem Settles.bind {x : Except Parsed Taking} {g : Taking → Except Parsed Taking}
    (h : Settles rs x) (hg : ∀ t, t.Holds rs → Settles rs' (g t)) : Settles rs' (x >>= g) := by
  cases x with
  | error p => exact h
  | ok t => exact hg t h

/-- Setting an option to a known value answers the request for it. -/
theorem Holds.set (h : t.Holds rs) (f : Flag) (value : Text)
    (hknown : ∀ v, (t.options.set f value).severity = .given v → v ∈ severities) :
    Holds { t with options := t.options.set f value } (rs ++ [.option f value]) := by
  have hsources : Request.sources (rs ++ [.option f value]) = Request.sources rs := by
    simp [Request.sources, Request.source?]
  have hset : (t.options.set f value).sources = t.options.sources := by cases f <;> rfl
  refine ⟨?_, hknown, ?_, ?_⟩
  · dsimp only
    rw [hset, Request.options_concat]
    conv => lhs; rw [h.options]
    cases f <;> rfl
  · rw [hsources, hset]
    exact h.sources
  · rw [hsources]
    exact h.unseen

/-- Carrying out an option answers the request for it, or ends everything. -/
theorem settles_flag (h : t.Holds rs) (f : Flag) (value : Text) :
    Settles (rs ++ [.option f value]) (t.flag f value) := by
  cases f with
  | help => exact fun _ => nofun
  | json => exact h.set .json value h.severity
  | config => exact h.set .config value h.severity
  | disable => exact h.set .disable value h.severity
  | verbose => exact h.set .verbose value h.severity
  | severity =>
    unfold Taking.flag
    dsimp only
    split
    · rename_i v hv
      split
      · rename_i hknown
        rw [← hv]
        refine h.set .severity value fun w hw => ?_
        cases hv.symm.trans hw
        exact hknown
      · exact fun _ => nofun
    · rename_i hnone
      exact h.set .severity value fun w hw => absurd hw (hnone w)

theorem settles_flags (h : t.Holds rs) (fs : List Flag) :
    Settles (rs ++ fs.map (.option · "")) (t.flags fs) := by
  induction fs generalizing t rs with
  | nil =>
    rw [List.map_nil, List.append_nil]
    exact h
  | cons f fs ih =>
    refine (settles_flag h f "").bind fun t₁ ht₁ => ?_
    have hrest := ih ht₁
    rwa [List.append_assoc] at hrest

/-- The first run of plain arguments answers the requests for its sources; any other
    is left over. -/
theorem Holds.plain (h : t.Holds rs) (hdivided : Arg.Divided (run ++ rest))
    (hrun : ∀ a ∈ run, a.plain?.isSome = true) (hne : run ≠ []) :
    (t.plain run).Holds (rs ++ (run.filterMap Arg.source?).map .source) := by
  have hsources := congrArg Options.sources
    (Request.options_sources rs (run.filterMap Arg.source?))
  unfold Taking.plain
  split
  · rename_i hfirst
    have hunseen : t.sourcesSeen = false := by
      rw [Bool.and_eq_true, Bool.not_eq_true'] at hfirst
      exact hfirst.1
    refine ⟨?_, h.severity, ?_, nofun⟩
    · rw [Request.options_sources]
      dsimp only
      conv => lhs; rw [h.options]
    · intro hextras
      refine Eq.trans ?_ hsources.symm
      dsimp only at hextras ⊢
      rw [h.unseen hextras hunseen, sourcesOf_eq hdivided hrun]
      rfl
  · -- a run that is left over is not empty
    have hextras : t.extras ++ run.filterMap Arg.plain? ≠ [] := by
      obtain ⟨a, run, rfl⟩ := List.exists_cons_of_ne_nil hne
      obtain ⟨s, hs⟩ := Option.isSome_iff_exists.1 (hrun a (by simp))
      simp [List.filterMap_cons_some hs]
    refine ⟨?_, h.severity, fun hnone => absurd hnone hextras, fun hnone => absurd hnone hextras⟩
    rw [Request.options_sources]
    exact h.options

/-- Taking arguments answers what they ask for. The induction is on the bound, which
    exceeds the number of arguments. -/
theorem settles_all {fuel : Nat} (h : t.Holds rs) (hfuel : l.length < fuel)
    (hdivided : Arg.Divided l) : Settles (rs ++ Request.ofArgs l) (Taking.all fuel t l) := by
  induction fuel generalizing t rs l with
  | zero => exact absurd hfuel (Nat.not_lt_zero _)
  | succ fuel ih =>
    cases l with
    | nil =>
      rw [Request.ofArgs, List.append_nil]
      exact h
    | cons a rest =>
      have hrest : rest.length < fuel := Nat.lt_of_succ_lt_succ hfuel
      -- a run of plain arguments is taken at once, whatever it starts with
      have hrun : a.plain?.isSome = true → Settles (rs ++ Request.ofArgs (a :: rest))
          (Taking.all fuel (t.plain ((a :: rest).takeWhile (·.plain?.isSome)))
            ((a :: rest).dropWhile (·.plain?.isSome))) := by
        intro ha
        have hsplit := List.takeWhile_append_dropWhile (p := (·.plain?.isSome)) (l := a :: rest)
        have hplain : ∀ b ∈ (a :: rest).takeWhile (·.plain?.isSome), b.plain?.isSome = true :=
          fun b hb => List.mem_takeWhile_imp (p := fun b : Arg => b.plain?.isSome) hb
        have hne : (a :: rest).takeWhile (·.plain?.isSome) ≠ [] := by
          rw [List.takeWhile_cons_of_pos (p := fun b : Arg => b.plain?.isSome) ha]
          exact List.cons_ne_nil _ _
        have hshorter : ((a :: rest).dropWhile (·.plain?.isSome)).length < fuel := by
          rw [List.dropWhile_cons_of_pos (p := fun b : Arg => b.plain?.isSome) ha]
          exact Nat.lt_of_le_of_lt (List.dropWhile_suffix _).length_le hrest
        have hstep := ih (h.plain (hsplit.symm ▸ hdivided) hplain hne) hshorter hdivided.dropWhile
        rwa [List.append_assoc, ← Request.ofArgs_append hplain, hsplit] at hstep
      cases a with
      | plain s => exact hrun rfl
      | divider => exact hrun rfl
      | unknown s =>
        have hleft : Holds { t with extras := t.extras ++ [s] } rs :=
          ⟨h.options, h.severity, fun hnone => absurd hnone (by simp),
            fun hnone => absurd hnone (by simp)⟩
        show Settles (rs ++ Request.ofArgs rest) _
        exact ih hleft hrest hdivided.2
      | letter f attached =>
        simp only [Taking.all]
        split
        · exact fun _ => nofun
        · rename_i fs hfs
          refine (settles_flags h fs).bind fun t₁ ht₁ => ?_
          have hstep := ih ht₁ hrest hdivided.2
          rw [List.append_assoc] at hstep
          simpa [Request.ofArgs, hfs, Except.toOption] using hstep
      | word f attached =>
        simp only [Taking.all]
        split
        · refine (settles_flag h f _).bind fun t₁ ht₁ => ?_
          simpa [Request.ofArgs] using ih ht₁ hrest hdivided.2
        · rename_i value rest' htakes
          refine (settles_flag h f _).bind fun t₁ ht₁ => ?_
          simpa [Request.ofArgs, htakes] using ih ht₁ (Nat.lt_of_succ_lt hrest) hdivided.2.2
        · exact fun _ => nofun
        · rename_i htakes
          refine (settles_flag h f _).bind fun t₁ ht₁ => ?_
          simpa [Request.ofArgs, htakes] using ih ht₁ hrest hdivided.2
        · exact fun _ => nofun

end Taking

/-- Options are what some arguments ask for. -/
def Options.Asked (args : List Text) (o : Options) : Prop :=
  ∃ l, Arg.classifyAll args = .ok l ∧ o = Request.options (Request.ofArgs l)

/-- Accepted arguments are carried out to the letter, and a severity among them is
    a known one. -/
theorem Options.asked_of_parse (h : Options.parse args = .run o) :
    o.Asked args ∧ ∀ v, o.severity = .given v → v ∈ severities := by
  unfold Options.parse at h
  split at h
  · cases h
  · rename_i l hl
    have hclassified := Arg.classified_of_classifyAll hl
    have hstart : Taking.Holds {} [] := ⟨rfl, nofun, fun _ => rfl, fun _ _ => rfl⟩
    have hlength : l.length < args.length + 1 := Nat.lt_succ_of_le hclassified.length_eq.le
    have hsettles := Taking.settles_all hstart hlength hclassified.divided
    split at h
    · rename_i hall
      rw [hall] at hsettles
      exact absurd h (hsettles o)
    · rename_i t hall
      rw [hall] at hsettles
      have hholds : t.Holds (Request.ofArgs l) := hsettles
      split at h
      · cases h
      · split at h
        · rename_i hextras
          cases h
          refine ⟨⟨l, hl, ?_⟩, hholds.severity⟩
          rw [hholds.options, hholds.sources (List.isEmpty_iff.1 hextras)]
          rfl
        · cases h

example : Options.parse ["-v", "--config=c", "--json", "--conf", "d", "a.sir"] =
    .run { sources := ["a.sir"], json := true, config := .given "d", verbose := true } := by
  decide +kernel

/-- The sources are among the arguments in order. -/
theorem Options.Asked.sources (h : o.Asked args) : o.sources.Sublist args := by
  obtain ⟨l, hl, rfl⟩ := h
  exact (Request.sources_ofArgs l).trans (Arg.classified_of_classifyAll hl).sublist

end Sendability.Command
