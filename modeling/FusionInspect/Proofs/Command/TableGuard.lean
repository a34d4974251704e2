import FusionInspect.Proofs.Command.Show
import FusionInspect.Proofs.Path.Address

/-!
# The guard before the table of prototypes

The table of prototypes is not meant to be shown as a part of the tree: who asks for it is referred to
another command. The guard looks at the path as it is written, whereas a tree is looked up by the steps
of a path, and empty steps are left out. So the guard knows one spelling of the table, and each of the
others leads past it: dots in front of the key or behind it (`split_eq_table_iff`).
-/

namespace FusionInspect.Show

open FusionPath (split)

/-- The answer that refers to another command. -/
def referral : Answer :=
  ⟨1, [.line .warning tableWarning]⟩

/-! ## Spellings of the table -/

/-- The paths whose only step is the key of the table are that key with dots around it. -/
theorem split_eq_table_iff {path : String} : split path = [Key.prototypes] ↔
    ∃ m n, path.toList = List.replicate m '.' ++ (Key.prototypes.toList ++ List.replicate n '.') :=
  FusionPath.split_eq_singleton_iff (by decide) (FusionPath.undivided_of_dotless (by decide) 0) (by decide)

/-- The step to the table. -/
def tableStep : FusionPath.Step :=
  .key Key.prototypes (by decide)

/-- A path of that single step leads to the table. -/
theorem at?_table {t : ObjectTree} {table : Branch} (htable : t.root.get? Key.prototypes = some (.branch table))
    {path : String} (h : split path = [Key.prototypes]) : t.at? (some path) = .ok table := by
  have hfound : (Node.branch t.root).descend? ([tableStep].flatMap FusionPath.Step.keys) =
      some (.branch table) := by
    change (t.root.get? Key.prototypes).bind _ = _
    rw [htable]
    rfl
  rw [t.at?_of_split (List.cons_ne_nil tableStep []) h, hfound]
  rfl

/-! ## What gets past the guard -/

/-- Neither an error nor lines that are shown look like the referral. -/
theorem answer_ne_referral (outcome : Except Error (List String)) :
    answer (outcome.map (List.map Event.plain)) ≠ referral := by
  intro h
  cases outcome with
  | error e => cases congrArg Answer.events h
  | ok lines => cases congrArg Answer.exit h

/-- The guard answers exactly when the path is the key of the table, as it is written. -/
theorem objectTree_eq_referral_iff (path : Option String) (options : DisplayOptions) (disk : Disk)
    (s : Session) : (objectTree path options disk s).1 = referral ↔ path = some Key.prototypes := by
  have hrun := (Command.objectTree path options).run_fst disk s
  change (objectTree path options disk s).1 = if path == some Key.prototypes then referral else _ at hrun
  rw [hrun]
  by_cases hpath : path = some Key.prototypes
  · exact iff_of_true (if_pos (beq_iff_eq.mpr hpath)) hpath
  · rw [if_neg fun hguard => hpath (beq_iff_eq.mp hguard)]
    exact iff_of_false (answer_ne_referral _) hpath

/-- **The table of prototypes is refused in one spelling only.** Of the paths that lead to the table
itself, the guard refuses the one that is written as the bare key, in every session and with all options.
All the others have dots in front of the key or behind it; whenever there is a table, they show it and
exit with zero, under the path as it was written. -/
theorem table_refused_iff (path : String) (h : split path = [Key.prototypes]) (options : DisplayOptions)
    (disk : Disk) (s : Session) :
    ((objectTree (some path) options disk s).1 = referral ↔ path = Key.prototypes) ∧
    (path ≠ Key.prototypes ↔ ∃ m n, 0 < m + n ∧
      path.toList = List.replicate m '.' ++ (Key.prototypes.toList ++ List.replicate n '.')) ∧
    (path ≠ Key.prototypes → ∀ t table, (s.tree disk).1 = .ok t →
      t.root.get? Key.prototypes = some (.branch table) →
      (objectTree (some path) options disk s).1 =
        ⟨0, (Command.treeLines options path t table).map Event.plain⟩) := by
  refine ⟨?_, ⟨fun hne => ?_, ?_⟩, fun hne t table ht htable => ?_⟩
  · rw [objectTree_eq_referral_iff, Option.some.injEq]
  · obtain ⟨m, n, hpath⟩ := split_eq_table_iff.mp h
    refine ⟨m, n, Nat.pos_of_ne_zero fun hzero => hne ?_, hpath⟩
    obtain ⟨rfl, rfl⟩ := Nat.add_eq_zero_iff.mp hzero
    exact String.toList_inj.mp (hpath.trans (List.append_nil _))
  · rintro ⟨m, n, hpos, hpath⟩ rfl
    have hlength := congrArg List.length hpath
    rw [List.length_append, List.length_append, List.length_replicate, List.length_replicate] at hlength
    omega
  · have hrun := (Command.objectTree (some path) options).run_fst disk s
    change (objectTree (some path) options disk s).1 =
      if some path == some Key.prototypes then _ else _ at hrun
    have hlabel : ((some path).filter (· != "")).getD "." = path := by
      have hempty : path ≠ "" := FusionPath.ne_empty_of_split (h ▸ List.cons_ne_nil _ _)
      simp [Option.filter, hempty]
    rw [hrun, if_neg fun hguard => hne (Option.some.inj (beq_iff_eq.mp hguard)), ht]
    change answer (((t.at? (some path)).map _).map _) = _
    rw [at?_table htable h, hlabel]
    rfl

/-- Options for a drawing of the tree as it is. -/
def bare : DisplayOptions :=
  ⟨false, false, false⟩

/-- A session that has loaded a table with one prototype. -/
def linkSession : Session :=
  ⟨.ofConfig .standard, ⟨some ⟨[(Key.prototypes, .branch [("Link", .branch [("x", .scalar .null)])])]⟩⟩⟩

/-- A dot behind the key shows the table in that session. -/
theorem table_refused_iff_linkSession :
    split "__prototypes." = [Key.prototypes] ∧
    (objectTree (some "__prototypes.") bare (.ofWorkingFolder "work") linkSession).1 =
      ⟨0, [.plain "__prototypes.", .plain "└── Link", .plain "    └── x => null", .plain ""]⟩ := by
  have hsplit : split "__prototypes." = [Key.prototypes] := by decide
  obtain ⟨-, -, hshown⟩ :=
    table_refused_iff "__prototypes." hsplit bare (.ofWorkingFolder "work") linkSession
  exact ⟨hsplit, hshown (by decide) _ _ rfl rfl⟩

/-- A package with one source, which declares a prototype. -/
def prototypeDisk : Disk :=
  ⟨.folder [("work", .folder [("Packages", .folder [("Vendor.Site", .folder [("Resources",
    .folder [("Private", .folder [("Fusion", .folder [("Root.fusion.json",
      .file "\x7b\"__prototypes\":\x7b\"A\":\x7b\"x\":1\x7d\x7d\x7d".toUTF8)])])])])])])], ["work"]⟩

/-- The guard does not refuse every path that leads to the table. -/
theorem objectTree_prototypeDisk_ne : ¬ ∀ (path : String) (options : DisplayOptions) (disk : Disk)
    (s : Session), split path = [Key.prototypes] → (objectTree (some path) options disk s).1 = referral := by
  intro h
  have hrefused := h "__prototypes." bare prototypeDisk (.ofConfig .standard) (by decide)
  exact absurd hrefused (by decide +kernel)

end FusionInspect.Show
