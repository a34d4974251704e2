import FusionInspect.Command.Lint
import FusionInspect.Proofs.Session.Reached
import FusionInspect.Proofs.Source.Include

/-!
# Linting and loading agree

Linting checks each file on its own, with its include statements commented out. Loading parses the files
as they are, each onto the tree of those before it, and stops at the first that fails. Neither difference
matters to what is found: a file passes the one check exactly if it passes the other
(`accumulate_of_passes`, `accumulate_of_fails`). So linting finds nothing exactly if loading succeeds, and
the failure of a load is the first one that linting reports.

Linting goes over the files one by one. What one file adds to a run (`step_eq`) does not depend on the files
before it, so a run is told by the files (`foldl_step`), and its report by the files alone (`report_run`).
-/

namespace FusionInspect.Lint

open Session (accumulate)

/-- The file can be read and parsed on its own, its include statements commented out. -/
def Passes (disk : Disk) (f : SourceFile) : Prop :=
  ∃ text t, (f.read disk).1 = .ok text ∧
    Source.parse f.path (Source.normalizeIncludes text) .empty = .ok t

/-- The file cannot be read, or not be parsed on its own, and this is the error. -/
inductive Fails (disk : Disk) (f : SourceFile) : Error → Prop where
  | unreadable (hread : (f.read disk).1 = .error (.unreadable f.path)) :
      Fails disk f (.unreadable f.path)
  | unparsable {text : String} {cause : ParseError} (hread : (f.read disk).1 = .ok text)
      (hparse : Source.parse f.path (Source.normalizeIncludes text) .empty = .error cause) :
      Fails disk f (.unparsable f.path cause)

/-- What linting says about an error. The path of a file that does not parse stands in front already. -/
def detail : Error → String
  | .unparsable _ cause => cause.message
  | e => e.message

/-- The message of linting about a file. -/
def message (f : SourceFile) (e : Error) : String :=
  "Error in " ++ f.package ++ " -> '" ++ f.relative ++ "': " ++ detail e

variable {disk : Disk} {f : SourceFile} {e : Error}

/-- A file passes, or fails with some error. -/
theorem passes_or_fails (disk : Disk) (f : SourceFile) : Passes disk f ∨ ∃ e, Fails disk f e := by
  cases hread : (f.read disk).1 with
  | error e =>
    refine .inr ⟨.unreadable f.path, .unreadable ?_⟩
    rw [hread]
    unfold SourceFile.read at hread
    split at hread
    · cases hread
    · split at hread
      · cases hread
      · cases hread
        rfl
  | ok text =>
    cases hparse : Source.parse f.path (Source.normalizeIncludes text) .empty with
    | error cause => exact .inr ⟨_, .unparsable hread hparse⟩
    | ok t => exact .inl ⟨text, t, hread, hparse⟩

/-! ## One file after the other -/

/-- Whether the file fails. -/
def Verdict.fails (v : Verdict) : Bool :=
  v.failure?.isSome

/-- The line about a file that passes. -/
def Verdict.passLine (v : Verdict) : String :=
  "File " ++ v.file.relative ++ " contains no errors."

/-- What is put out about one file: a line if it passes and files are listed, or a step of the count. -/
def fileEvents (options : LintOptions) (v : Verdict) : List Event :=
  if options.quiet then []
  else if options.verbose then if v.fails then [] else [.line .success v.passLine]
  else [.progressAdvance]

/-- The report on some files: how many they are, and a message for each that fails. -/
def report (verdicts : List Verdict) : LintReport :=
  ⟨verdicts.length, verdicts.filterMap Verdict.error?⟩

/-- There is a message exactly about the files that fail. -/
theorem error?_isSome (v : Verdict) : v.error?.isSome = v.fails :=
  Option.isSome_map

/-- A file adds its message to the report if it fails, and to the output what is put out about it. -/
theorem step_eq (options : LintOptions) (r : Run) (v : Verdict) :
    step options r v = ⟨⟨r.report.processed, r.report.errors ++ v.error?.toList⟩,
      r.events ++ fileEvents options v⟩ := by
  obtain ⟨verbose, quiet⟩ := options
  have hfails := error?_isSome v
  unfold step fileEvents
  -- a file that passes and one that fails meet different guards, which agree on the count
  cases herror : v.error? with
  | none =>
    rw [herror] at hfails
    cases quiet <;> cases verbose <;> simp [LintOptions.lists, Run.put, ← hfails, Verdict.passLine]
  | some message =>
    rw [herror] at hfails
    cases quiet <;> cases verbose <;>
      simp [LintOptions.lists, LintOptions.counts, Run.put, Run.note, ← hfails]

/-- The files of a run add to it one after the other. -/
theorem foldl_step (options : LintOptions) (verdicts : List Verdict) (r : Run) :
    verdicts.foldl (step options) r =
      ⟨⟨r.report.processed, r.report.errors ++ verdicts.filterMap Verdict.error?⟩,
        r.events ++ verdicts.flatMap (fileEvents options)⟩ := by
  induction verdicts generalizing r with
  | nil => simp
  | cons v rest ih =>
    rw [List.foldl_cons, ih, step_eq, List.flatMap_cons, List.append_assoc, List.append_assoc]
    cases herror : v.error? with
    | none => rw [List.filterMap_cons_none herror]; rfl
    | some message => rw [List.filterMap_cons_some herror]; rfl

/-- The report counts all files from the start, and has no message. -/
theorem report_start (options : LintOptions) (files : Nat) : (start options files).report = ⟨files, []⟩ := by
  unfold start
  dsimp only
  split <;> rfl

theorem report_finish (options : LintOptions) (r : Run) : (finish options r).report = r.report := by
  unfold finish
  split
  · rfl
  · dsimp only
    split <;> rfl

/-- The report of a run is about all its files, whatever the options. -/
theorem report_run (options : LintOptions) (verdicts : List Verdict) :
    (run options verdicts).report = report verdicts := by
  rw [run, report_finish, foldl_step, report_start]
  rfl

/-! ## What linting reports -/

/-- What linting reports about a file that has not been read yet. -/
def error? (disk : Disk) (f : SourceFile) : Option String :=
  (verdict (f, (f.read disk).1)).error?

/-- The verdict on a file, by what is on disk. -/
def judged (disk : Disk) (f : SourceFile) : Verdict :=
  verdict ((f.read disk).2, (f.read disk).1)

/-- The verdicts on files that are read one after the other are those on each alone. -/
theorem map_verdict_readAll (disk : Disk) (files : List SourceFile) :
    (Catalogue.readAll disk files).map verdict = files.map (judged disk) := by
  induction files with
  | nil => rfl
  | cons f rest ih => rw [Catalogue.readAll, List.map_cons, ih, List.map_cons]; rfl

/-- Reading a file changes nothing that a message names. -/
theorem error?_judged (disk : Disk) (f : SourceFile) : (judged disk f).error? = error? disk f := by
  obtain ⟨text?, hread⟩ := f.read_snd disk
  rw [judged, hread]
  rfl

/-- The messages of a report are those about each file alone. -/
theorem errors_report (disk : Disk) (files : List SourceFile) :
    (report ((Catalogue.readAll disk files).map verdict)).errors = files.filterMap (error? disk) := by
  rw [map_verdict_readAll, report, List.filterMap_map]
  exact List.filterMap_congr fun f _ => error?_judged disk f

/-- Nothing is reported about a file that passes. -/
theorem error?_of_passes (h : Passes disk f) : error? disk f = none := by
  obtain ⟨text, t, hread, hparse⟩ := h
  unfold error? verdict Verdict.error? failure?
  simp only [hread, hparse, Option.map_none]

/-- A file that fails is reported with its error. -/
theorem error?_of_fails (h : Fails disk f e) : error? disk f = some (message f e) := by
  unfold error? verdict Verdict.error? failure?
  cases h with
  | unreadable hread =>
    simp only [hread]
    rfl
  | unparsable hread hparse =>
    simp only [hread, hparse]
    rfl

/-- No file both passes and fails. -/
theorem Fails.not_passes (hfail : Fails disk f e) : ¬ Passes disk f := by
  intro hpass
  have herror := error?_of_fails hfail
  rw [error?_of_passes hpass] at herror
  cases herror

/-! ## What loading meets -/

/-- A file that passes is added to whatever is there, and loading goes on. -/
theorem accumulate_of_passes (h : Passes disk f) (t : ObjectTree) (rest : List SourceFile) :
    ∃ u, (accumulate disk t (f :: rest)).1 = (accumulate disk u rest).1 := by
  obtain ⟨text, v, hread, hparse⟩ := h
  rw [Source.parse_normalizeIncludes] at hparse
  cases hload : Source.parse f.path text t with
  | error cause =>
    rw [Source.parse_eq_error_iff, ← Source.parse_eq_error_iff (t := .empty), hparse] at hload
    cases hload
  | ok u =>
    refine ⟨u, ?_⟩
    rw [accumulate]
    simp only [hread, f.read_path, hload]

/-- A file that fails ends a load, with the error that it has on its own. -/
theorem accumulate_of_fails (h : Fails disk f e) (t : ObjectTree) (rest : List SourceFile) :
    (accumulate disk t (f :: rest)).1 = .error e := by
  unfold accumulate
  cases h with
  | unreadable hread => simp only [hread]
  | @unparsable text cause hread hparse =>
    rw [Source.parse_normalizeIncludes, Source.parse_eq_error_iff] at hparse
    have hload : Source.parse f.path text t = .error cause := Source.parse_eq_error_iff.mpr hparse
    simp only [hread, f.read_path, hload]

/-- All files pass and are loaded, or one is the first to fail and ends the load. -/
theorem accumulate_cases (disk : Disk) (files : List SourceFile) : ∀ t : ObjectTree,
    ((∀ f ∈ files, Passes disk f) ∧ ∃ u, (accumulate disk t files).1 = .ok u) ∨
      ∃ earlier f later e, files = earlier ++ f :: later ∧ (∀ g ∈ earlier, Passes disk g) ∧
        Fails disk f e ∧ (accumulate disk t files).1 = .error e := by
  induction files with
  | nil =>
    intro t
    exact .inl ⟨by simp, t, rfl⟩
  | cons f rest ih =>
    intro t
    rcases passes_or_fails disk f with hpass | ⟨e, hfail⟩
    · obtain ⟨u, hgo⟩ := accumulate_of_passes hpass t rest
      rw [hgo]
      rcases ih u with ⟨hall, hok⟩ | ⟨earlier, g, later, e, rfl, hearlier, hfail, herror⟩
      · exact .inl ⟨List.forall_mem_cons.mpr ⟨hpass, hall⟩, hok⟩
      · exact .inr ⟨f :: earlier, g, later, e, rfl, List.forall_mem_cons.mpr ⟨hpass, hearlier⟩, hfail,
          herror⟩
    · exact .inr ⟨[], f, rest, e, rfl, by simp, hfail, accumulate_of_fails hfail t rest⟩

/-- Nothing is found exactly if everything is loaded. -/
theorem filterMap_error?_eq_nil_iff (disk : Disk) (files : List SourceFile) :
    files.filterMap (error? disk) = [] ↔ ∃ t, (accumulate disk .empty files).1 = .ok t := by
  rcases accumulate_cases disk files .empty with
    ⟨hall, hok⟩ | ⟨earlier, f, later, e, rfl, -, hfail, herror⟩
  · refine iff_of_true (List.filterMap_eq_nil_iff.mpr fun f hf => ?_) hok
    exact error?_of_passes (hall f hf)
  · refine iff_of_false (fun hclean => ?_) (fun ⟨t, hok⟩ => ?_)
    · have hnone := List.filterMap_eq_nil_iff.mp hclean f (by simp)
      rw [error?_of_fails hfail] at hnone
      cases hnone
    · rw [herror] at hok
      cases hok

/-- The file that ends a load is the first that is reported. -/
theorem first_failure {files : List SourceFile} (h : (accumulate disk .empty files).1 = .error e) :
    ∃ earlier f later, files = earlier ++ f :: later ∧ (∀ g ∈ earlier, Passes disk g) ∧
      Fails disk f e ∧ (files.filterMap (error? disk)).head? = some (message f e) := by
  rcases accumulate_cases disk files .empty with
    ⟨-, t, hok⟩ | ⟨earlier, f, later, e', hfiles, hearlier, hfail, herror⟩
  · rw [hok] at h
    cases h
  · obtain rfl : e' = e := by
      rw [herror] at h
      exact Except.error.inj h
    refine ⟨earlier, f, later, hfiles, hearlier, hfail, ?_⟩
    have hpassed : earlier.filterMap (error? disk) = [] :=
      List.filterMap_eq_nil_iff.mpr fun g hg => error?_of_passes (hearlier g hg)
    rw [hfiles, List.filterMap_append, hpassed, List.nil_append,
      List.filterMap_cons_some (error?_of_fails hfail), List.head?_cons]

/-- **Linting agrees with loading.** From a fresh start, linting all packages finds nothing exactly if the
object tree can be loaded. If it cannot, the load fails on the first file, in the order in which files
are found, that does not pass on its own; it fails with the error of that file; and that file is the
first one that linting reports. Behind this stands that a source is parsed alike with its include
statements commented out, and that the tree it is added to does not decide whether it is refused. -/
theorem lint_agrees_with_load (disk : Disk) (config : Config) (options : LintOptions) :
    ((lint none options disk (.ofConfig config)).1.errors = [] ↔
        ∃ t, ((Session.ofConfig config).tree disk).1 = .ok t) ∧
      (∀ e, ((Session.ofConfig config).tree disk).1 = .error e →
        ∃ earlier f later, ((Catalogue.ofConfig config).load disk none).1 = earlier ++ f :: later ∧
          (∀ g ∈ earlier, Passes disk g) ∧ Fails disk f e ∧
          (lint none options disk (.ofConfig config)).1.errors.head? = some (message f e)) ∧
      ∀ label text t,
        Source.parse label (Source.normalizeIncludes text) t = Source.parse label text t ∧
          ∀ u e, Source.parse label text t = .error e ↔ Source.parse label text u = .error e := by
  have hlint : (lint none options disk (.ofConfig config)).1.errors =
      ((Catalogue.ofConfig config).load disk none).1.filterMap (error? disk) := by
    rw [← errors_report disk, ← report_run options]
    rfl
  have hload : ((Session.ofConfig config).tree disk).1 =
      (accumulate disk .empty ((Catalogue.ofConfig config).load disk none).1).1 := by
    rcases Session.tree_cases disk (.ofConfig config) with ⟨t, hcache, -⟩ | ⟨-, htree, -⟩
    · cases hcache
    · exact htree
  rw [hlint, hload]
  refine ⟨filterMap_error?_eq_nil_iff disk _, fun e he => first_failure he, fun label text t => ?_⟩
  refine ⟨Source.parse_normalizeIncludes label text t, fun u e => ?_⟩
  rw [Source.parse_eq_error_iff, Source.parse_eq_error_iff]

end FusionInspect.Lint
