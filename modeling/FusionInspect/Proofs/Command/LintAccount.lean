import FusionInspect.Proofs.Command.Lint
import FusionInspect.Proofs.Report.Buffer

/-!
# Linting accounts for every file

What linting finds about a file is a VERDICT, and what it reports and puts out is made from the verdicts
alone. Every file counts once: in the number of files, in the list of messages if it fails, and in the
output as a step of progress or as a line of its own. The options choose what is put out. They have no
part in the report (`Account`).

Verdicts are taken as they come here, so this holds for whatever is found about each file. That the
verdict on a file depends on nothing but the file is `lint_eq`, and that it is the right one is
`judged_fails` and `judged_passes`.
-/

namespace FusionInspect

namespace Lint

/-! ## Accounts -/

/-- The last line about files that all pass. -/
def cleanLine (processed : Nat) : String :=
  "Processed " ++ toString processed ++ " files and found no syntax errors."

/-- What a report and some events owe to the files that they are about. -/
structure Account (options : LintOptions) (verdicts : List Verdict) (r : LintReport)
    (events : List Event) : Prop where
  /-- All files are counted. -/
  processed : r.processed = verdicts.length
  /-- There is one message for each file that fails, in the order of the files. -/
  errors : List.Forall₂ (fun v message => v.error? = some message) (verdicts.filter Verdict.fails) r.errors
  /-- The exit code tells whether some file fails. -/
  exit : r.exitCode = if verdicts.any Verdict.fails then 1 else 0
  /-- Nothing is put out if that was asked for. -/
  quiet : options.quiet = true → ∀ b : Buffer, events.foldl Buffer.receive b = b
  /-- Otherwise each message is put out, and no other error. -/
  reported : options.quiet = false → (Buffer.ofEvents events).linesAt .error = r.errors
  /-- Unless it is to be verbose, files are counted one by one, up to the last. -/
  counted : options.quiet = false → options.verbose = false →
    (Buffer.ofEvents events).total = some r.processed ∧ (Buffer.ofEvents events).steps = r.processed ∧
      (Buffer.ofEvents events).finished = true
  /-- If it is, each file that passes has a line of its own, and nothing is counted. -/
  listed : options.quiet = false → options.verbose = true →
    (Buffer.ofEvents events).total = none ∧ (Buffer.ofEvents events).steps = 0 ∧
      (Buffer.ofEvents events).finished = false ∧
      (Buffer.ofEvents events).linesAt .success =
        (verdicts.filter fun v => !v.fails).map Verdict.passLine ++
          if verdicts.any Verdict.fails then [] else [cleanLine r.processed]

/-! ## The report -/

/-- One message for each file that fails. -/
theorem forall₂_errors (verdicts : List Verdict) :
    List.Forall₂ (fun v message => v.error? = some message) (verdicts.filter Verdict.fails)
      (report verdicts).errors := by
  induction verdicts with
  | nil => exact .nil
  | cons v rest ih =>
    change List.Forall₂ _ _ (List.filterMap Verdict.error? (v :: rest))
    have hfails := error?_isSome v
    cases herror : v.error? with
    | none =>
      rw [herror] at hfails
      rw [List.filterMap_cons_none herror, List.filter_cons_of_neg (by simp [← hfails])]
      exact ih
    | some message =>
      rw [herror] at hfails
      rw [List.filterMap_cons_some herror, List.filter_cons_of_pos hfails.symm]
      exact .cons herror ih

/-- The report is clean exactly if no file fails. -/
theorem isClean_report (verdicts : List Verdict) :
    (report verdicts).isClean = !verdicts.any Verdict.fails := by
  rw [LintReport.isClean, Bool.eq_iff_iff, List.isEmpty_iff, Bool.not_eq_true', List.any_eq_false]
  refine List.filterMap_eq_nil_iff.trans (forall₂_congr fun v _ => ?_)
  rw [← error?_isSome, Option.not_isSome_iff_eq_none]

/-- The exit code of the report tells whether some file fails. -/
theorem exitCode_report (verdicts : List Verdict) :
    (report verdicts).exitCode = if verdicts.any Verdict.fails then 1 else 0 := by
  rw [LintReport.exitCode, isClean_report]
  cases verdicts.any Verdict.fails <;> rfl

/-! ## What is put out -/

open Event (textsAt textsAt_nil textsAt_append textsAt_cons_line textsAt_lines)

/-- The summary is made of lines, and has no progress in it. -/
theorem line?_of_mem_summary (r : LintReport) : ∀ e ∈ summary r, e.line?.isSome := by
  intro e he
  unfold summary at he
  rcases List.mem_append.mp he with he | he
  · rcases List.mem_cons.mp he with rfl | he
    · rfl
    · obtain ⟨text, -, rfl⟩ := List.mem_map.mp he
      rfl
  · rcases List.mem_cons.mp he with rfl | he
    · rfl
    · split at he
      · rw [List.mem_singleton.mp he]
        rfl
      · rcases List.mem_cons.mp he with rfl | he
        · rfl
        · rw [List.mem_singleton.mp he]
          rfl

/-- The errors of the summary are those of the report. -/
theorem textsAt_error_summary (r : LintReport) : textsAt .error (summary r) = r.errors := by
  unfold summary
  rw [textsAt_append]
  split <;> simp [Event.blank, Event.plain, textsAt_cons_line, textsAt_lines, textsAt_nil]

/-- The summary has a line of success exactly if the report is clean. -/
theorem textsAt_success_summary (r : LintReport) :
    textsAt .success (summary r) = if r.isClean then [cleanLine r.processed] else [] := by
  unfold summary
  rw [textsAt_append]
  split <;> simp [Event.blank, Event.plain, textsAt_cons_line, textsAt_lines, textsAt_nil, cleanLine]

/-- The progress of a count: announced, one step for each file, and ended. -/
def counting (files : Nat) : List Event :=
  .progressStart files :: List.replicate files .progressAdvance ++ [.progressFinish]

/-- While files are counted no line is put out. -/
theorem textsAt_counting (level : Level) (files : Nat) : textsAt level (counting files) = [] := by
  simp [textsAt, counting, List.filterMap_cons, Event.line?]

/-- A count announces all files, has a step for each and ends. -/
theorem progress_counting (files : Nat) : (counting files).filterMap Event.total? = [files] ∧
    (counting files).count .progressAdvance = files ∧ .progressFinish ∈ counting files := by
  refine ⟨?_, ?_, ?_⟩
  · simp [counting, List.filterMap_cons, Event.total?]
  · simp [counting, List.count_replicate_self]
  · simp [counting]

/-- What a run puts out: what comes first, what is put out about each file, and what comes last. -/
theorem events_run (options : LintOptions) (verdicts : List Verdict) :
    (run options verdicts).events = (start options verdicts.length).events ++
      verdicts.flatMap (fileEvents options) ++
        if options.quiet then []
        else (if options.lists then [] else [.progressFinish]) ++ summary (report verdicts) := by
  rw [run, foldl_step, report_start]
  unfold finish
  -- a count is ended before the summary, and the summary is of what the run has gathered
  cases options.quiet with
  | true => exact (List.append_nil _).symm
  | false =>
    cases options.lists with
    | true => rfl
    | false => exact List.append_assoc _ _ _

/-- A quiet run puts out nothing, verbose or not. -/
theorem events_quiet {options : LintOptions} (hquiet : options.quiet = true) (verdicts : List Verdict) :
    (run options verdicts).events = [] := by
  have hstart : (start options verdicts.length).events = [] := by
    simp [start, LintOptions.counts, hquiet]
  have hfiles : verdicts.flatMap (fileEvents options) = [] :=
    List.flatMap_eq_nil_iff.mpr fun v _ => by simp [fileEvents, hquiet]
  rw [events_run, hstart, hfiles, if_pos hquiet]
  rfl

/-- With no options there is a step of the count for each file, whatever is found about it. -/
theorem flatMap_fileEvents_counted {options : LintOptions} (hquiet : options.quiet = false)
    (hverbose : options.verbose = false) (verdicts : List Verdict) :
    verdicts.flatMap (fileEvents options) = List.replicate verdicts.length .progressAdvance := by
  induction verdicts with
  | nil => rfl
  | cons v rest ih =>
    rw [List.flatMap_cons, ih, List.length_cons, List.replicate_succ]
    simp [fileEvents, hquiet, hverbose]

/-- If it is to be verbose there is a line for each file that passes, and nothing for the others. -/
theorem flatMap_fileEvents_listed {options : LintOptions} (hquiet : options.quiet = false)
    (hverbose : options.verbose = true) (verdicts : List Verdict) :
    verdicts.flatMap (fileEvents options) =
      ((verdicts.filter fun v => !v.fails).map Verdict.passLine).map (Event.line .success) := by
  induction verdicts with
  | nil => rfl
  | cons v rest ih =>
    rw [List.flatMap_cons, ih]
    cases hfails : v.fails <;> simp [fileEvents, hquiet, hverbose, hfails]

/-- With no options files are counted. -/
theorem events_counted {options : LintOptions} (hquiet : options.quiet = false)
    (hverbose : options.verbose = false) (verdicts : List Verdict) :
    (run options verdicts).events = counting verdicts.length ++ summary (report verdicts) := by
  have hstart : (start options verdicts.length).events = [.progressStart verdicts.length] := by
    simp [start, LintOptions.counts, LintOptions.lists, Run.put, hquiet, hverbose]
  rw [events_run, hstart, flatMap_fileEvents_counted hquiet hverbose, hquiet]
  simp [counting, LintOptions.lists, hverbose]

/-- A verbose run has a line for each file that passes. -/
theorem events_listed {options : LintOptions} (hquiet : options.quiet = false)
    (hverbose : options.verbose = true) (verdicts : List Verdict) :
    (run options verdicts).events =
      ((verdicts.filter fun v => !v.fails).map Verdict.passLine).map (Event.line .success) ++
        summary (report verdicts) := by
  have hlists : options.lists = true := by simp [LintOptions.lists, hquiet, hverbose]
  have hstart : (start options verdicts.length).events = [] := by
    simp [start, LintOptions.counts, hlists]
  rw [events_run, hstart, flatMap_fileEvents_listed hquiet hverbose, hquiet, hlists]
  rfl

/-- A run accounts for all files, whatever is found about each. -/
theorem account_run (options : LintOptions) (verdicts : List Verdict) :
    Account options verdicts (report verdicts) (run options verdicts).events where
  processed := rfl
  errors := forall₂_errors verdicts
  exit := exitCode_report verdicts
  quiet := by
    intro hquiet b
    rw [events_quiet hquiet]
    rfl
  reported := by
    intro hquiet
    rw [Buffer.linesAt_ofEvents]
    cases hverbose : options.verbose with
    | false =>
      rw [events_counted hquiet hverbose, textsAt_append, textsAt_counting, textsAt_error_summary]
      rfl
    | true =>
      rw [events_listed hquiet hverbose, textsAt_append, textsAt_lines, textsAt_error_summary]
      rfl
  counted := by
    intro hquiet hverbose
    obtain ⟨htotal, hsteps, hfinish⟩ := progress_counting verdicts.length
    obtain ⟨hnoTotal, hnoStep, -⟩ := Event.progress_of_lines (line?_of_mem_summary (report verdicts))
    rw [events_counted hquiet hverbose, Buffer.ofEvents, Buffer.foldl_receive]
    refine ⟨?_, ?_, ?_⟩
    · dsimp only
      rw [List.filterMap_append, htotal, hnoTotal]
      rfl
    · rw [List.count_append, hsteps, hnoStep]
      exact Nat.zero_add _
    · simp [hfinish]
  listed := by
    intro hquiet hverbose
    have hlines : ∀ e ∈ (run options verdicts).events, e.line?.isSome := by
      intro e he
      rw [events_listed hquiet hverbose] at he
      rcases List.mem_append.mp he with he | he
      · obtain ⟨text, -, rfl⟩ := List.mem_map.mp he
        rfl
      · exact line?_of_mem_summary _ e he
    obtain ⟨htotal, hsteps, hfinish⟩ := Event.progress_of_lines hlines
    refine ⟨?_, ?_, ?_, ?_⟩
    · simp [Buffer.ofEvents, Buffer.foldl_receive, htotal, Buffer.empty]
    · simp [Buffer.ofEvents, Buffer.foldl_receive, hsteps, Buffer.empty]
    · simp [Buffer.ofEvents, Buffer.foldl_receive, hfinish, Buffer.empty]
    · rw [Buffer.linesAt_ofEvents, events_listed hquiet hverbose, textsAt_append, textsAt_lines,
        textsAt_success_summary, isClean_report, if_pos rfl]
      cases verdicts.any Verdict.fails <;> rfl

/-! ## Files and their verdicts -/

variable {disk : Disk} {f : SourceFile}

/-- The message about a file is that for an error it fails with. -/
theorem judged_error?_eq_some {text : String} :
    (judged disk f).error? = some text ↔ ∃ e, Fails disk f e ∧ message f e = text := by
  rw [error?_judged]
  constructor
  · intro herror
    rcases passes_or_fails disk f with hpass | ⟨e, hfail⟩
    · rw [error?_of_passes hpass] at herror
      cases herror
    · rw [error?_of_fails hfail] at herror
      exact ⟨e, hfail, Option.some.inj herror⟩
  · rintro ⟨e, hfail, rfl⟩
    exact error?_of_fails hfail

/-- The verdict on a file fails exactly if the file cannot be read or parsed. -/
theorem judged_fails : (judged disk f).fails = true ↔ ∃ e, Fails disk f e := by
  rw [← error?_isSome, Option.isSome_iff_exists]
  constructor
  · rintro ⟨text, herror⟩
    obtain ⟨e, hfail, -⟩ := judged_error?_eq_some.mp herror
    exact ⟨e, hfail⟩
  · rintro ⟨e, hfail⟩
    exact ⟨message f e, judged_error?_eq_some.mpr ⟨e, hfail, rfl⟩⟩

/-- It passes exactly if the file can be read and parsed. -/
theorem judged_passes : (judged disk f).fails = false ↔ Passes disk f := by
  rw [← Bool.not_eq_true, judged_fails]
  rcases passes_or_fails disk f with hpass | hfails
  · exact iff_of_true (fun ⟨e, hfail⟩ => hfail.not_passes hpass) hpass
  · exact iff_of_false (not_not_intro hfails) fun hpass => hfails.elim fun e hfail => hfail.not_passes hpass

/-- Linting judges the files one by one, and makes report and output of what it finds. -/
theorem lint_eq (package : Option String) (options : LintOptions) (disk : Disk) (c : Catalogue) :
    (lint package options disk c).1 = report ((c.load disk package).1.map (judged disk)) ∧
      (lint package options disk c).2.1 =
        (run options ((c.load disk package).1.map (judged disk))).events := by
  rw [← map_verdict_readAll, ← report_run options]
  exact ⟨rfl, rfl⟩

/-- **Linting accounts for every file exactly once, whatever the options.** For any verdicts on any files
the report counts all files, has one message for each that fails in the order of the files, and exits
with one exactly if some file fails. With no options files are counted: the progress is announced, has a
step for each file and ends. Verbose linting has no progress, and a line for each file that passes. In
both cases the errors put out are those of the report, and quiet linting puts out nothing at all, verbose
or not. The verdicts that linting goes by are those on the files that were found, each by the file alone,
and the options are no part of them: hence the report is the same for all options. A verdict is on the file
as it is: it fails exactly if the file cannot be read or parsed, with the message for that error, and
passes exactly if the file can. -/
theorem accounts_for_every_file :
    (∀ options verdicts, (run options verdicts).report = report verdicts ∧
      Account options verdicts (run options verdicts).report (run options verdicts).events) ∧
    (∀ disk f, ((judged disk f).fails = true ↔ ∃ e, Fails disk f e) ∧
      ((judged disk f).fails = false ↔ Passes disk f) ∧
      ∀ text, (judged disk f).error? = some text ↔ ∃ e, Fails disk f e ∧ message f e = text) ∧
    ∀ (package : Option String) (disk : Disk) (c : Catalogue) (options : LintOptions),
      let verdicts := (c.load disk package).1.map (judged disk)
      (lint package options disk c).1 = report verdicts ∧
        Account options verdicts (lint package options disk c).1 (lint package options disk c).2.1 := by
  refine ⟨fun options verdicts => ?_, fun disk f => ?_, fun package disk c options => ?_⟩
  · rw [report_run]
    exact ⟨rfl, account_run options verdicts⟩
  · exact ⟨judged_fails, judged_passes, fun text => judged_error?_eq_some⟩
  · obtain ⟨hreport, hevents⟩ := lint_eq package options disk c
    rw [hreport, hevents]
    exact ⟨rfl, account_run options _⟩

end Lint

end FusionInspect
