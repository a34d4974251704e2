import FusionInspect.Command.Show
import FusionInspect.Proofs.Report.Buffer
import FusionInspect.Proofs.Session.Reached

/-!
# Commands show all or nothing

A command that shows something asks its session up to twice: for a tree, and for the tree flattened. Each
question may load the tree of all sources, and may fail. Nothing is put out in between, and the second
question is answered from the tree that the first one was answered from, whatever the session had loaded
before and whatever is on disk (`Session.tree_after`). So the answer of a command is a function of one
tree, or of the failure to load it (`Command.run_fst`).

From that it follows that a command puts out all lines that it was asked for and exits with zero, or puts
out one line that says why not and exits with something else (`all_or_nothing`).
-/

namespace FusionInspect

/-! ## What is received of an answer -/

/-- What a fresh buffer has received of an answer. -/
def Answer.entries (a : Answer) : List (Level × String) :=
  (Buffer.ofEvents a.events).entries

namespace Show

/-- The answer exits with zero, and nothing in it is a warning or an error. -/
def Complete (a : Answer) : Prop :=
  a.exit = 0 ∧ ∀ entry ∈ a.entries, entry.1 ≠ .warning ∧ entry.1 ≠ .error

/-- The answer does not exit with zero, and all it has is one line: an error, or the warning that the
table of prototypes is not shown. -/
def Refused (a : Answer) : Prop :=
  a.exit ≠ 0 ∧ ((∃ e : Error, a.exit = e.exitCode ∧ a.entries = [(.error, e.message)]) ∨
    a.entries = [(.warning, tableWarning)])

/-! ## Commands -/

/-- A command that shows something. -/
inductive Command where
  | objectTree (path : Option String) (options : DisplayOptions)
  | prototype (name : String) (options : DisplayOptions)
  | prototypes (options : ListOptions)

namespace Command

/-- Carries the command out in a session. -/
def run : Command → Disk → Session → Answer × Session
  | .objectTree path options => Show.objectTree path options
  | .prototype name options => Show.prototype name options
  | .prototypes options => Show.prototypes options

/-- Whether the command asks for the table of prototypes itself. -/
def asksForTable : Command → Bool
  | .objectTree path _ => path == some Key.prototypes
  | _ => false

/-- The lines of a tree that is shown, flattened first if that is wanted. -/
def treeLines (options : DisplayOptions) (label : String) (t : ObjectTree) (b : Branch) : List String :=
  let b := if options.flatten then Display.flatten t.prototypes b else b
  if options.json then [b.toJson.pretty]
  else (if options.colour then Colour.tree (Drawing.lines label b) else Drawing.lines label b) ++ [""]

/-- The lines that the command is asked for, in a session with this tree. -/
def lines (t : ObjectTree) : Command → Except Error (List String)
  | .objectTree path options =>
    (t.at? path).map (treeLines options ((path.filter (· != "")).getD ".") t)
  | .prototype name options => (Prototype.resolve t.prototypes name).map (treeLines options name t)
  | .prototypes options =>
    let names := t.prototypes.keys
    let names := if options.sort then Text.naturalSort names else names
    .ok (if options.format then names.map (" - " ++ ·) else names)

end Command

/-! ## The answer of a command -/

/-- A tree is put out as the lines that were asked for. -/
theorem treeEvents_eq (options : DisplayOptions) (label : String) (t : ObjectTree) (b : Branch) :
    treeEvents options label (if options.flatten then Display.flatten t.prototypes b else b) =
      (Command.treeLines options label t b).map Event.plain := by
  unfold treeEvents Command.treeLines
  split
  · rfl
  · rw [List.map_append]
    rfl

/-- A tree that is put out comes from the tree that the first question was answered from, flattened
against the same tree. -/
theorem display_fst (question : ObjectTree → Except Error Branch) (label : String)
    (options : DisplayOptions) (disk : Disk) (s : Session) :
    (display question label options disk s).1 =
      answer (((s.tree disk).1 >>= fun t => (question t).map (Command.treeLines options label t)).map
        (List.map Event.plain)) := by
  cases htree : (s.tree disk).1 with
  | error e =>
    rw [display, Session.ask_eq, htree]
    rfl
  | ok t =>
    change _ = answer (((question t).map _).map _)
    cases hfound : question t with
    | error e =>
      rw [display, Session.ask_eq, htree, show (Except.ok t >>= question) = .error e from hfound]
      rfl
    | ok b =>
      have hagain : ((s.tree disk).2.ask (Session.flattened b) disk).1 =
          .ok (Display.flatten t.prototypes b) := by
        rw [Session.ask_eq, Session.tree_after htree]
        rfl
      change _ = answer (.ok ((Command.treeLines options label t b).map Event.plain))
      rw [display, Session.ask_eq, htree, show (Except.ok t >>= question) = .ok b from hfound,
        ← treeEvents_eq]
      cases hflatten : options.flatten with
      | true =>
        change answer (((s.tree disk).2.ask (Session.flattened b) disk).1.map _) = _
        rw [hagain, if_pos rfl]
        rfl
      | false => rfl

/-- The answer of a command depends on the session only by the tree that it shows. -/
theorem Command.run_fst (c : Command) (disk : Disk) (s : Session) :
    (c.run disk s).1 =
      if c.asksForTable then ⟨1, [.line .warning tableWarning]⟩
      else answer (((s.tree disk).1 >>= c.lines).map (List.map Event.plain)) := by
  cases c with
  | objectTree path options =>
    change (Show.objectTree path options disk s).1 = if path == some Key.prototypes then _ else _
    unfold Show.objectTree
    split
    · rfl
    · exact display_fst _ _ options disk s
  | prototype name options => exact display_fst _ name options disk s
  | prototypes options =>
    change (Show.prototypes options disk s).1 = answer _
    rw [Show.prototypes, Session.ask_eq]
    cases (s.tree disk).1 with
    | error e => rfl
    | ok t =>
      change answer (.ok (if options.format then _ else _)) = answer (.ok (List.map _ (if _ then _ else _)))
      split
      · rw [List.map_map]
        rfl
      · rfl

/-! ## All or nothing -/

/-- Every error exits with something other than zero. -/
theorem exitCode_ne_zero (e : Error) : e.exitCode ≠ 0 := by
  unfold Error.exitCode
  split
  · exact Nat.one_ne_zero
  · next h => exact h

/-- An answer of plain lines is complete, and received line by line. -/
theorem complete_of_plain (lines : List String) :
    Complete ⟨0, lines.map Event.plain⟩ ∧
      Answer.entries ⟨0, lines.map Event.plain⟩ = lines.map (Level.plain, ·) := by
  have hentries : Answer.entries ⟨0, lines.map Event.plain⟩ = lines.map (Level.plain, ·) := by
    have h := Buffer.entries_ofEvents_lines (lines.map (Level.plain, ·))
    rwa [List.map_map] at h
  refine ⟨⟨rfl, fun entry hentry => ?_⟩, hentries⟩
  rw [hentries] at hentry
  obtain ⟨_, _, rfl⟩ := List.mem_map.mp hentry
  simp

theorem refused_of_error (e : Error) : Refused (answer (.error e)) :=
  ⟨exitCode_ne_zero e, .inl ⟨e, rfl, rfl⟩⟩

/-- The three ways in which a command can end. -/
theorem Command.run_cases (c : Command) (disk : Disk) (s : Session) :
    (∃ t lines, (s.tree disk).1 = .ok t ∧ c.lines t = .ok lines ∧
      (c.run disk s).1 = ⟨0, lines.map Event.plain⟩) ∨
    (∃ e, ((s.tree disk).1 >>= c.lines) = .error e ∧ (c.run disk s).1 = answer (.error e)) ∨
    c.asksForTable = true ∧ (c.run disk s).1 = ⟨1, [.line .warning tableWarning]⟩ := by
  have hrun := c.run_fst disk s
  cases htable : c.asksForTable with
  | true => exact .inr (.inr ⟨rfl, by simpa [htable] using hrun⟩)
  | false =>
    simp only [htable, Bool.false_eq_true, if_false] at hrun
    cases htree : (s.tree disk).1 with
    | error e => exact .inr (.inl ⟨e, rfl, by rw [hrun, htree]; rfl⟩)
    | ok t =>
      rw [htree, show (Except.ok t >>= c.lines) = c.lines t from rfl] at hrun
      cases hlines : c.lines t with
      | error e => exact .inr (.inl ⟨e, hlines, by rw [hrun, hlines]; rfl⟩)
      | ok lines => exact .inl ⟨t, lines, rfl, hlines, by rw [hrun, hlines]; rfl⟩

/-- **Commands show all or nothing.** Whatever is on disk, whatever was done with the session before and
whatever the options are, a command ends in exactly one of two ways: it exits with zero and no warning or
error was put out, or it does not and exactly one line was put out, an error or the warning about the
table of prototypes. In the first case all lines that were asked for are there. The second case comes
about only when the table was asked for, or when there is an error on the way to the lines, and then it is
that error which is put out. -/
theorem all_or_nothing (c : Command) (disk : Disk) (s : Session) :
    let a := (c.run disk s).1
    (Complete a ∧ ¬ Refused a ∨ Refused a ∧ ¬ Complete a) ∧
    (Complete a → ∃ t lines, (s.tree disk).1 = .ok t ∧ c.lines t = .ok lines ∧
      a.entries = lines.map (Level.plain, ·)) ∧
    (Refused a → c.asksForTable = true ∨ ∃ e, ((s.tree disk).1 >>= c.lines) = .error e ∧
      a.exit = e.exitCode ∧ a.entries = [(.error, e.message)]) := by
  intro a
  have hapart : ∀ {b : Answer}, Complete b → ¬ Refused b := fun hc hr => hr.1 hc.1
  have hcases := c.run_cases disk s
  change (∃ t lines, _ ∧ _ ∧ a = _) ∨ (∃ e, _ ∧ a = _) ∨ _ ∧ a = _ at hcases
  clear_value a
  rcases hcases with ⟨t, lines, htree, hlines, rfl⟩ | ⟨e, he, rfl⟩ | ⟨htable, rfl⟩
  · obtain ⟨hcomplete, hentries⟩ := complete_of_plain lines
    exact ⟨.inl ⟨hcomplete, hapart hcomplete⟩, fun _ => ⟨t, lines, htree, hlines, hentries⟩,
      fun hrefused => absurd hrefused (hapart hcomplete)⟩
  · have hrefused : Refused (answer (.error e)) := refused_of_error e
    exact ⟨.inr ⟨hrefused, fun hc => hapart hc hrefused⟩, fun hc => absurd hrefused (hapart hc),
      fun _ => .inr ⟨e, he, rfl, rfl⟩⟩
  · have hrefused : Refused ⟨1, [.line .warning tableWarning]⟩ := ⟨Nat.one_ne_zero, .inr rfl⟩
    exact ⟨.inr ⟨hrefused, fun hc => hapart hc hrefused⟩, fun hc => absurd hrefused (hapart hc),
      fun _ => .inl htable⟩

end Show

end FusionInspect
