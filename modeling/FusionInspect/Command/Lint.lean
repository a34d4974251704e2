import FusionInspect.Report.Output
import FusionInspect.Session.Basic
import FusionInspect.Source.Include

/-!
# Linting

Every source file is checked on its own, one after the other. A run starts with the number of files, takes
in the verdict on each (`Lint.step`), and ends with a summary. The report counts the files and holds one
message for each that fails. What is put out depends on the options, the report does not.
-/

namespace FusionInspect

/-- What linting puts out. Being quiet wins over being verbose. -/
structure LintOptions where
  verbose : Bool
  quiet : Bool
  deriving Repr, DecidableEq

namespace LintOptions

/-- Whether each file that passes is reported. -/
def lists (options : LintOptions) : Bool :=
  options.verbose && !options.quiet

/-- Whether files are counted as they are checked. -/
def counts (options : LintOptions) : Bool :=
  !options.quiet && !options.lists

end LintOptions

/-- What linting found. -/
structure LintReport where
  processed : Nat
  errors : List String
  deriving Repr, DecidableEq

namespace LintReport

/-- Whether no file failed. -/
def isClean (r : LintReport) : Bool :=
  r.errors.isEmpty

/-- The exit code of a program that lints. -/
def exitCode (r : LintReport) : Nat :=
  if r.isClean then 0 else 1

end LintReport

namespace Lint

/-- What is wrong with a file, if anything is, given its text. -/
def failure? (path : String) (text : Except Error String) : Option String :=
  match text with
  | .error e => some e.message
  | .ok text =>
    match Source.parse path (Source.normalizeIncludes text) .empty with
    | .ok _ => none
    | .error e => some e.message

/-- A file, and what is wrong with it if anything is. -/
structure Verdict where
  file : SourceFile
  failure? : Option String
  deriving Repr

/-- The message for a file that fails. -/
def Verdict.error? (v : Verdict) : Option String :=
  v.failure?.map fun message =>
    "Error in " ++ v.file.package ++ " -> '" ++ v.file.relative ++ "': " ++ message

/-- The verdict on a file with its text. -/
def verdict (e : SourceFile × Except Error String) : Verdict :=
  ⟨e.1, failure? e.1.path e.2⟩

/-- What is put out about a report. -/
def summary (r : LintReport) : List Event :=
  .blank :: r.errors.map (.line .error) ++ .blank ::
    if r.isClean then
      [.line .success
        ("Processed " ++ toString r.processed ++ " files and found no syntax errors.")]
    else
      [.line .warning ("Processed " ++ toString r.processed ++ " files and encountered "
          ++ toString r.errors.length ++ " errors!"),
        .line .warning "There may be additional output containing more information above."]

/-- What linting has found and put out so far. -/
structure Run where
  report : LintReport
  events : List Event
  deriving Repr

namespace Run

/-- Puts an event out. -/
def put (r : Run) (e : Event) : Run :=
  { r with events := r.events ++ [e] }

/-- Takes the message for a file into the report. -/
def note (r : Run) (message : String) : Run :=
  { r with report := { r.report with errors := r.report.errors ++ [message] } }

end Run

/-- The run before the first of some files. -/
def start (options : LintOptions) (files : Nat) : Run :=
  let r : Run := ⟨⟨files, []⟩, []⟩
  if options.counts then r.put (.progressStart files) else r

/-- The run after one more file. -/
def step (options : LintOptions) (r : Run) (v : Verdict) : Run :=
  match v.error? with
  | none =>
    if options.lists then
      r.put (.line .success ("File " ++ v.file.relative ++ " contains no errors."))
    else if options.quiet then r
    else r.put .progressAdvance
  | some message =>
    let r := r.note message
    if options.counts then r.put .progressAdvance else r

/-- The run after the last file. -/
def finish (options : LintOptions) (r : Run) : Run :=
  if options.quiet then r
  else
    let r := if options.lists then r else r.put .progressFinish
    { r with events := r.events ++ summary r.report }

/-- The run over some files. -/
def run (options : LintOptions) (verdicts : List Verdict) : Run :=
  finish options (verdicts.foldl (step options) (start options verdicts.length))

end Lint

/-- Lints the source files that a key stands for. -/
def lint (package : Option String) (options : LintOptions) (disk : Disk) (c : Catalogue) :
    LintReport × List Event × Catalogue :=
  let (texts, c) := c.loadTexts disk package
  let run := Lint.run options (texts.map Lint.verdict)
  (run.report, run.events, c)

end FusionInspect
