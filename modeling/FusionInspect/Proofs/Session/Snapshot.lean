import Mathlib.Data.List.Induction
import FusionInspect.Command.Lint
import FusionInspect.Proofs.Session.Reached
import FusionInspect.Proofs.Workspace.Recall

/-!
# Sessions answer from a snapshot

A session remembers on three levels: the object tree, the lists of files, and the text of each file that
was read. In between files come and go, lists are forgotten, files are linted and loads fail. None of this
reaches the tree: from the question that loads it until the next reset every answer is computed from that
one tree (`World.tree?_run`).

The tree is whole. It was loaded at one moment of the run from ALL files of the list that the session had
then (`World.exists_load`), and that list was found by one walk through the folders, at that moment or
earlier (`World.exists_listing`): a load that fails halfway leaves the list as long as it was, and only adds
the texts that were read by then.
-/

namespace FusionInspect

/-! ## Lists of files, texts aside -/

/-- The file without its text. -/
def SourceFile.unread (f : SourceFile) : SourceFile :=
  { f with text? := none }

/-- Reading a file changes its text at most. -/
theorem SourceFile.unread_read (disk : Disk) (f : SourceFile) : (f.read disk).2.unread = f.unread := by
  obtain ⟨text?, hread⟩ := f.read_snd disk
  rw [hread]
  rfl

namespace Catalogue

/-- The same for all files of a list. -/
theorem map_unread_readAll (disk : Disk) (files : List SourceFile) :
    ((readAll disk files).map Prod.fst).map SourceFile.unread = files.map SourceFile.unread := by
  induction files with
  | nil => rfl
  | cons f rest ih => simp only [readAll, List.map_cons, SourceFile.unread_read, ih]

/-- The same for one file of a list. -/
theorem map_unread_modify (disk : Disk) (place : Nat) (files : List SourceFile) :
    (files.modify place fun f => (f.read disk).2).map SourceFile.unread =
      files.map SourceFile.unread := by
  induction files generalizing place with
  | nil => simp
  | cons f rest ih =>
    cases place with
    | zero => simp [SourceFile.unread_read]
    | succ place => simp [ih]

/-- Files are found without their texts. -/
theorem map_unread_listing (disk : Disk) (config : Config) (key : Option String) :
    (listing disk config key).map SourceFile.unread = listing disk config key := by
  have hunread : ∀ f ∈ listing disk config key, f.unread = id f := by
    intro f hf
    obtain ⟨package, _, hf⟩ := List.mem_flatMap.mp hf
    unfold ofPackage at hf
    split at hf
    · cases hf
    · obtain ⟨base, _, hf⟩ := List.mem_flatMap.mp hf
      unfold inFolder at hf
      split at hf
      · obtain ⟨names, _, rfl⟩ := List.mem_map.mp hf
        rfl
      · cases hf
  rw [List.map_congr_left hunread, List.map_id]

/-- Reads one file of a list, by its place. -/
def readAt (disk : Disk) (key : Option String) (place : Nat) (c : Catalogue) : Catalogue :=
  let (files, c) := c.load disk key
  c.remember (scope disk c.config key) (files.modify place fun f => (f.read disk).2)

/-- What becomes of a catalogue that is used: each list was there before or is found on the disk, texts
aside. -/
structure Keeps (disk : Disk) (c d : Catalogue) : Prop where
  config_eq : d.config = c.config
  listed : ∀ s files, Entries.find? s d.found = some files →
    (∃ known, Entries.find? s c.found = some known ∧
      files.map SourceFile.unread = known.map SourceFile.unread) ∨
    ∃ key, scope disk c.config key = s ∧ files.map SourceFile.unread = listing disk c.config key

section

variable {disk : Disk} {c d : Catalogue}

theorem Keeps.refl (disk : Disk) (c : Catalogue) : Keeps disk c c :=
  ⟨rfl, fun _ files hs => .inl ⟨files, hs, rfl⟩⟩

/-- A list may take the place of one that has the same files. -/
theorem Keeps.remember (h : Keeps disk c d) {s : String} {known files : List SourceFile}
    (hknown : Entries.find? s d.found = some known)
    (hsame : files.map SourceFile.unread = known.map SourceFile.unread) :
    Keeps disk c (d.remember s files) := by
  refine ⟨h.config_eq, fun s' files' hs => ?_⟩
  rw [find?_remember] at hs
  split at hs
  · next hscope =>
    cases hs
    rw [hsame]
    exact h.listed s' known (hscope ▸ hknown)
  · exact h.listed s' files' hs

/-- Listing files changes no list that was there. -/
theorem keeps_load (disk : Disk) (key : Option String) (c : Catalogue) :
    Keeps disk c (c.load disk key).2 := by
  rcases load_cases disk key c with ⟨files, -, hload⟩ | hload
  · rw [hload]
    exact .refl disk c
  · rw [hload]
    refine ⟨rfl, fun s files hs => ?_⟩
    rw [find?_remember] at hs
    split at hs
    · next hscope =>
      cases hs
      exact .inr ⟨key, hscope.symm, map_unread_listing disk c.config key⟩
    · exact .inl ⟨files, hs, rfl⟩

/-- The list that a load gives is the one that is kept. -/
theorem find?_load (disk : Disk) (key : Option String) (c : Catalogue) :
    Entries.find? (scope disk c.config key) (c.load disk key).2.found = some (c.load disk key).1 := by
  rcases load_cases disk key c with ⟨files, hfound, hload⟩ | hload
  · rw [hload]
    exact hfound
  · rw [hload, find?_remember, if_pos rfl]

/-- Loading a list and reading files of it keeps the lists. -/
theorem keeps_load_remember (disk : Disk) (key : Option String) (c : Catalogue) {files : List SourceFile}
    (hsame : files.map SourceFile.unread = (c.load disk key).1.map SourceFile.unread) :
    Keeps disk c ((c.load disk key).2.remember (scope disk (c.load disk key).2.config key) files) := by
  have hload := keeps_load disk key c
  rw [hload.config_eq]
  exact hload.remember (find?_load disk key c) hsame

/-- Reading all files of a list changes their texts at most. -/
theorem keeps_loadTexts (disk : Disk) (key : Option String) (c : Catalogue) :
    Keeps disk c (c.loadTexts disk key).2 :=
  keeps_load_remember disk key c (map_unread_readAll disk _)

/-- So does reading one of them. -/
theorem keeps_readAt (disk : Disk) (key : Option String) (place : Nat) (c : Catalogue) :
    Keeps disk c (c.readAt disk key place) :=
  keeps_load_remember disk key c (map_unread_modify disk place _)

end

end Catalogue

namespace Session

/-- Parsing files one after the other changes their texts at most, also where it stops. -/
theorem map_unread_accumulate (disk : Disk) : ∀ (files : List SourceFile) (t : ObjectTree),
    (accumulate disk t files).2.map SourceFile.unread = files.map SourceFile.unread
  | [], _ => rfl
  | f :: rest, t => by
    unfold accumulate
    simp only
    split
    · simp only [List.map_cons, SourceFile.unread_read]
    · split
      · simp only [List.map_cons, SourceFile.unread_read]
      · simp only [List.map_cons, SourceFile.unread_read, map_unread_accumulate disk rest]

/-- Loading a tree changes no list but for the texts in it. -/
theorem keeps_loadTree (disk : Disk) (c : Catalogue) : c.Keeps disk (loadTree disk c).2 :=
  Catalogue.keeps_load_remember disk none c (map_unread_accumulate disk _ .empty)

/-- Neither does asking for one. -/
theorem keeps_tree (disk : Disk) (s : Session) : s.catalogue.Keeps disk (s.tree disk).2.catalogue := by
  cases hcache : s.cache.tree? with
  | some t =>
    rw [tree_of_some hcache]
    exact .refl disk s.catalogue
  | none =>
    rw [tree_of_none hcache]
    exact keeps_loadTree disk s.catalogue

end Session

/-! ## Questions and runs -/

namespace Session

/-- What can be asked of a session. -/
inductive Question where
  | tree
  | known (name : String)
  | names (sorted : Bool)
  | prototype (name : String)
  | part (path : Option String)
  | flattened (definition : Branch)

/-- What a session answers. -/
inductive Answer where
  | tree (t : ObjectTree)
  | known (found : Bool)
  | names (names : List String)
  | branch (b : Branch)

/-- The answer that a tree gives. -/
def Question.answer : Question → ObjectTree → Except Error Answer
  | .tree, t => .ok (.tree t)
  | .known name, t => (isKnown name t).map .known
  | .names sorted, t => (Session.names sorted t).map .names
  | .prototype name, t => (Session.prototype name t).map .branch
  | .part path, t => (Session.part path t).map .branch
  | .flattened definition, t => (Session.flattened definition t).map .branch

end Session

open Session (Question)

/-- A session and the files that it finds. -/
structure World where
  disk : Disk
  session : Session

namespace World

/-- What can happen to a session and to the files. -/
inductive Step where
  /-- Files are written or deleted, and these are the files that are there then. -/
  | edit (disk : Disk)
  /-- The lists of files are forgotten. -/
  | clear
  /-- Everything is forgotten. -/
  | reset
  /-- Files are listed. -/
  | list (key : Option String)
  /-- One file of a list is read. -/
  | read (key : Option String) (place : Nat)
  /-- All files of a list are read. -/
  | readAll (key : Option String)
  /-- Files are linted. -/
  | lint (package : Option String) (options : LintOptions)
  /-- A question is asked. -/
  | ask (question : Question)

/-- Whether the lists of files are forgotten in a step. -/
def Step.forgets : Step → Bool
  | .clear | .reset => true
  | _ => false

/-- A new session. -/
def start (disk : Disk) (config : Config) : World :=
  ⟨disk, .ofConfig config⟩

/-- The catalogue of the session. -/
def catalogue (w : World) : Catalogue := w.session.catalogue

/-- The world with another catalogue. -/
def recatalogue (w : World) (catalogue : Catalogue) : World :=
  { w with session := { w.session with catalogue } }

/-- What comes of a step. -/
def after (w : World) : Step → World
  | .edit disk => { w with disk }
  | .clear => { w with session := w.session.clear }
  | .reset => { w with session := w.session.reset }
  | .list key => w.recatalogue (w.catalogue.load w.disk key).2
  | .read key place => w.recatalogue (w.catalogue.readAt w.disk key place)
  | .readAll key => w.recatalogue (w.catalogue.loadTexts w.disk key).2
  | .lint package options =>
    w.recatalogue (FusionInspect.lint package options w.disk w.catalogue).2.2
  | .ask question => { w with session := (w.session.ask question.answer w.disk).2 }

/-- What comes of some steps, one after the other. -/
def run (w : World) (steps : List Step) : World :=
  steps.foldl after w

/-- What the session answers now. -/
def reply (w : World) (question : Question) : Except Error Session.Answer :=
  (w.session.ask question.answer w.disk).1

theorem run_append_singleton (w : World) (steps : List Step) (step : Step) :
    w.run (steps ++ [step]) = (w.run steps).after step := by
  rw [run, List.foldl_append]
  rfl

theorem reply_eq (w : World) (question : Question) :
    w.reply question = (w.session.tree w.disk).1 >>= question.answer := rfl

theorem session_after_ask (w : World) (question : Question) :
    (w.after (.ask question)).session = (w.session.tree w.disk).2 := rfl

/-! ## The tree stays -/

section

variable {w : World} {t : ObjectTree}

/-- A tree that is held stays, whatever is done but a reset. -/
theorem tree?_after (h : w.session.cache.tree? = some t) {step : Step} (hstep : step ≠ .reset) :
    (w.after step).session.cache.tree? = some t := by
  cases step with
  | reset => exact absurd rfl hstep
  | ask question =>
    rw [session_after_ask, Session.tree_of_some h]
    exact h
  | edit | clear | list | read | readAll | lint => exact h

/-- A tree that is there stays until a reset. -/
theorem tree?_run {steps : List Step} (h : w.session.cache.tree? = some t) (hsteps : .reset ∉ steps) :
    (w.run steps).session.cache.tree? = some t := by
  induction steps generalizing w with
  | nil => exact h
  | cons step steps ih =>
    rw [List.mem_cons, not_or] at hsteps
    exact ih (tree?_after h (Ne.symm hsteps.1)) hsteps.2

/-- While a tree is held, all questions are answered from it. -/
theorem reply_of_tree? (h : w.session.cache.tree? = some t) (question : Question) :
    w.reply question = question.answer t := by
  rw [reply_eq, Session.tree_of_some h]
  rfl

/-- A tree that is shown is there afterwards. -/
theorem tree?_after_ask (h : (w.session.tree w.disk).1 = .ok t) (question : Question) :
    (w.after (.ask question)).session.cache.tree? = some t := by
  rw [session_after_ask]
  cases hcache : w.session.cache.tree? with
  | some u =>
    rw [Session.tree_of_some hcache] at h ⊢
    cases h
    exact hcache
  | none =>
    rw [Session.tree_of_none hcache] at h ⊢
    change (Session.loadTree w.disk w.session.catalogue).1.toOption = some t
    rw [show (Session.loadTree w.disk w.session.catalogue).1 = .ok t from h]
    rfl

/-- After a load that fails there is none. -/
theorem tree?_after_failure {e : Error} (h : (w.session.tree w.disk).1 = .error e)
    (question : Question) : (w.after (.ask question)).session.cache.tree? = none := by
  rw [session_after_ask]
  cases hcache : w.session.cache.tree? with
  | some u =>
    rw [Session.tree_of_some hcache] at h
    cases h
  | none =>
    rw [Session.tree_of_none hcache] at h ⊢
    change (Session.loadTree w.disk w.session.catalogue).1.toOption = none
    rw [show (Session.loadTree w.disk w.session.catalogue).1 = .error e from h]
    rfl

/-! ## Where a tree comes from -/

/-- A tree that is there after a step was there before it, or was loaded in it. -/
theorem origin_of_tree? {step : Step} (h : (w.after step).session.cache.tree? = some t) :
    step ≠ .reset ∧ (w.session.cache.tree? = some t ∨
      (Session.loadTree w.disk w.catalogue).1 = .ok t) := by
  cases step with
  | reset => cases h
  | ask question =>
    refine ⟨by simp, ?_⟩
    rw [session_after_ask] at h
    rcases Session.tree_cases w.disk w.session with ⟨u, hcache, htree⟩ | ⟨_, _, hload⟩
    · rw [htree] at h
      exact .inl h
    · exact .inr (hload t h)
  | edit | clear | list | read | readAll | lint => exact ⟨by simp, .inl h⟩

/-- A tree that a run ends with was loaded at one moment of it, after the last reset. The induction is on
the run from its end. -/
theorem exists_load {start : World} (hstart : start.session.cache.tree? = none) (steps : List Step)
    (h : (start.run steps).session.cache.tree? = some t) :
    ∃ earlier later, steps = earlier ++ later ∧ .reset ∉ later ∧
      (Session.loadTree (start.run earlier).disk (start.run earlier).catalogue).1 = .ok t := by
  induction steps using List.reverseRecOn with
  | nil =>
    rw [show start.run [] = start from rfl, hstart] at h
    cases h
  | append_singleton steps step ih =>
    rw [run_append_singleton] at h
    obtain ⟨hstep, hbefore | hload⟩ := origin_of_tree? h
    · obtain ⟨earlier, later, rfl, hlater, hload⟩ := ih hbefore
      refine ⟨earlier, later ++ [step], by rw [List.append_assoc], ?_, hload⟩
      simp [hlater, Ne.symm hstep]
    · exact ⟨steps, [step], rfl, by simp [Ne.symm hstep], hload⟩

/-! ## Where a list comes from -/

/-- After a step that forgets the lists there are none. -/
theorem found_after {step : Step} (h : step.forgets = true) : (w.after step).catalogue.found = [] := by
  cases step with
  | clear => rfl
  | reset => rfl
  | edit | list | read | readAll | lint | ask => cases h

/-- Any other step keeps them, texts aside. -/
theorem keeps_after {step : Step} (h : step.forgets = false) :
    w.catalogue.Keeps w.disk (w.after step).catalogue := by
  cases step with
  | clear => cases h
  | reset => cases h
  | edit disk => exact .refl w.disk w.catalogue
  | list key => exact Catalogue.keeps_load w.disk key w.catalogue
  | read key place => exact Catalogue.keeps_readAt w.disk key place w.catalogue
  | readAll key => exact Catalogue.keeps_loadTexts w.disk key w.catalogue
  | lint package options => exact Catalogue.keeps_loadTexts w.disk package w.catalogue
  | ask question => exact Session.keeps_tree w.disk w.session

/-- No step changes what the session was set up with. -/
theorem config_after (w : World) (step : Step) : (w.after step).catalogue.config = w.catalogue.config := by
  cases h : step.forgets with
  | false => exact (keeps_after h).config_eq
  | true =>
    cases step with
    | clear => rfl
    | reset => rfl
    | edit | list | read | readAll | lint | ask => cases h

/-- Neither do any number of steps. -/
theorem config_run (w : World) (steps : List Step) :
    (w.run steps).catalogue.config = w.catalogue.config := by
  induction steps generalizing w with
  | nil => rfl
  | cons step steps ih => exact (ih (w.after step)).trans (config_after w step)

/-- A list that a run ends with was found at one moment of it, since lists were last forgotten. -/
theorem exists_listing {start : World} (hstart : start.catalogue.found = []) (steps : List Step)
    {s : String} {files : List SourceFile}
    (h : Entries.find? s (start.run steps).catalogue.found = some files) :
    ∃ earlier later key, steps = earlier ++ later ∧ (∀ step ∈ later, step.forgets = false) ∧
      Catalogue.scope (start.run earlier).disk start.catalogue.config key = s ∧
      files.map SourceFile.unread =
        Catalogue.listing (start.run earlier).disk start.catalogue.config key := by
  induction steps using List.reverseRecOn generalizing files with
  | nil =>
    rw [show start.run [] = start from rfl, hstart] at h
    cases h
  | append_singleton steps step ih =>
    rw [run_append_singleton] at h
    cases hstep : step.forgets with
    | true =>
      rw [found_after hstep] at h
      cases h
    | false =>
      have hlater : ∀ later : List Step, (∀ step ∈ later, step.forgets = false) →
          ∀ step' ∈ later ++ [step], step'.forgets = false := by
        intro later hall step' hmem
        rcases List.mem_append.mp hmem with hmem | hmem
        · exact hall step' hmem
        · cases List.mem_singleton.mp hmem
          exact hstep
      have hkeeps := keeps_after (w := start.run steps) hstep
      rcases hkeeps.listed s files h with ⟨known, hknown, hsame⟩ | ⟨key, hscope, hfound⟩
      · obtain ⟨earlier, later, key, rfl, hall, hscope, hfound⟩ := ih hknown
        exact ⟨earlier, later ++ [step], key, by rw [List.append_assoc], hlater later hall, hscope,
          hsame.trans hfound⟩
      · rw [config_run] at hscope hfound
        exact ⟨steps, [step], key, rfl, hlater [] (by simp), hscope, hfound⟩

end

/-! ## The snapshot -/

/-- The list is what a walk found at some moment of a run, for a key that asks for all packages or shares
their scope. It was not forgotten since, though files of it may have been read. -/
def FoundIn (disk : Disk) (config : Config) (steps : List Step) (files : List SourceFile) : Prop :=
  ∃ earlier later key, steps = earlier ++ later ∧ (∀ step ∈ later, step.forgets = false) ∧
    Catalogue.scope ((start disk config).run earlier).disk config key = Catalogue.allPackages ∧
    files.map SourceFile.unread =
      ((Catalogue.ofConfig config).load ((start disk config).run earlier).disk key).1

/-- The tree was loaded at some moment of a run, since the last reset, from all files of the list that the
session had at that moment. -/
def LoadedIn (disk : Disk) (config : Config) (steps : List Step) (t : ObjectTree) : Prop :=
  ∃ earlier later w files, steps = earlier ++ later ∧ .reset ∉ later ∧
    w = (start disk config).run earlier ∧ files = (w.catalogue.load w.disk none).1 ∧
    Session.Whole w.disk files t ∧ FoundIn disk config earlier files

/-- The list that is loaded after some steps was found at some moment among them. -/
theorem foundIn_load (disk : Disk) (config : Config) (steps : List Step) {w : World}
    (hw : w = (start disk config).run steps) :
    FoundIn disk config steps (w.catalogue.load w.disk none).1 := by
  have hconfig : w.catalogue.config = config := hw ▸ config_run (start disk config) steps
  rcases Catalogue.load_cases w.disk none w.catalogue with ⟨files, hfound, hload⟩ | hload
  · rw [hload]
    exact exists_listing rfl steps (hw ▸ hfound)
  · rw [hload, hconfig, hw]
    exact ⟨steps, [], none, by simp, by simp, rfl, Catalogue.map_unread_listing _ config none⟩

/-- A tree that is loaded at some moment was loaded in each run that goes on without a reset. -/
theorem loadedIn_of_loadTree {disk : Disk} {config : Config} {t : ObjectTree} {earlier later : List Step}
    (hlater : .reset ∉ later) (hload : (Session.loadTree ((start disk config).run earlier).disk
      ((start disk config).run earlier).catalogue).1 = .ok t) :
    LoadedIn disk config (earlier ++ later) t :=
  ⟨earlier, later, _, _, rfl, hlater, rfl, rfl, Session.whole_of_loadTree hload,
    foundIn_load disk config earlier rfl⟩

/-- **A session answers from a snapshot.** Take any run, with files written and deleted, lists forgotten,
files listed, read and linted, questions and resets in any order. A question whose load succeeds with a
tree is answered from that tree, and so is every later one until the next reset, whatever else happens in
between. A question whose load fails is answered with the failure, and leaves no tree behind. And a tree
that is ever shown was loaded from all files of the list that the session had then, and that list is all
that one walk through the folders found. -/
theorem snapshot_stable (disk : Disk) (config : Config) (steps : List Step) (w : World)
    (hw : w = (start disk config).run steps) :
    (∀ t, (w.session.tree w.disk).1 = .ok t →
      (∀ first, w.reply first = first.answer t ∧
        ∀ later, .reset ∉ later → ∀ question,
          ((w.after (.ask first)).run later).reply question = question.answer t) ∧
      LoadedIn disk config steps t) ∧
    ∀ e, (w.session.tree w.disk).1 = .error e →
      ∀ question, w.reply question = .error e ∧ (w.after (.ask question)).session.cache.tree? = none := by
  subst hw
  constructor
  · intro t ht
    refine ⟨fun first => ⟨?_, fun later hlater question => ?_⟩, ?_⟩
    · rw [reply_eq, ht]
      rfl
    · exact reply_of_tree? (tree?_run (tree?_after_ask ht first) hlater) question
    · rcases Session.tree_cases _ _ with ⟨u, hcache, htree⟩ | ⟨-, htree, -⟩
      · rw [htree] at ht
        cases ht
        obtain ⟨earlier, later, rfl, hlater, hload⟩ := exists_load rfl steps hcache
        exact loadedIn_of_loadTree hlater hload
      · rw [htree] at ht
        have hnow : LoadedIn disk config (steps ++ []) t := loadedIn_of_loadTree (by simp) ht
        rwa [List.append_nil] at hnow
  · intro e he question
    refine ⟨?_, tree?_after_failure he question⟩
    rw [reply_eq, he]
    rfl

/-- A package with one source. -/
def siteDisk : Disk :=
  ⟨.folder [("work", .folder [("Packages", .folder [("Vendor.Site", .folder [("Resources",
    .folder [("Private", .folder [("Fusion", .folder [("Root.fusion.json",
      .file "\x7b\"page\":1\x7d".toUTF8)])])])])])])], ["work"]⟩

/-- Its tree still answers after all files were deleted and the lists forgotten. -/
theorem snapshot_stable_siteDisk :
    ∃ t, (((start siteDisk .standard).run [.list none]).session.tree siteDisk).1 = .ok t ∧
      (∀ question, ((((start siteDisk .standard).run [.list none]).after (.ask .tree)).run
        [.edit (.ofWorkingFolder "work"), .clear, .lint none ⟨true, false⟩]).reply question =
          question.answer t) ∧
      LoadedIn siteDisk .standard [.list none] t := by
  have hload : (((start siteDisk .standard).run [.list none]).session.tree siteDisk).1.isOk = true := by
    decide +kernel
  cases htree : (((start siteDisk .standard).run [.list none]).session.tree siteDisk).1 with
  | error e =>
    rw [htree] at hload
    cases hload
  | ok t =>
    obtain ⟨hstable, hloaded⟩ := (snapshot_stable siteDisk .standard [.list none] _ rfl).1 t htree
    exact ⟨t, rfl, (hstable .tree).2 _ (by simp), hloaded⟩

end World

end FusionInspect
