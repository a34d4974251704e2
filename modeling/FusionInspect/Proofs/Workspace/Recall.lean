import FusionInspect.Workspace.Catalogue

/-!
# What a catalogue recalls

A catalogue keeps a list of files under the scope that it was found for. While nothing changes on disk a
list that is recalled should be the one that a catalogue without memory would find, and for one package it
is: the scope names the package. The exception is the scope of all packages, which is a text like any
other. A package of that name shares it, and then the FIRST of the two lists answers for both until the
catalogue is cleared.

So nothing shows that lists are kept exactly if no package of that name takes part, or if it holds all the
files there are.
-/

namespace FusionInspect.Catalogue

/-- The files that a key stands for, found on a disk. -/
def listing (disk : Disk) (config : Config) (key : Option String) : List SourceFile :=
  discover disk config (wanted disk config key)

/-- Whether a package is there and takes part. -/
def Active (disk : Disk) (config : Config) (package : String) : Prop :=
  package ∈ packages disk config ∧ config.isFrozen package = false

/-- A catalogue without memory finds what is there. -/
theorem load_ofConfig (disk : Disk) (config : Config) (key : Option String) :
    ((ofConfig config).load disk key).1 = listing disk config key := rfl

/-- Remembering a list changes what is known about its scope and nothing else. -/
theorem find?_remember (c : Catalogue) (s s' : String) (files : List SourceFile) :
    Entries.find? s' (c.remember s files).found =
      if s' = s then some files else Entries.find? s' c.found :=
  Entries.find?_put s s' files c.found

/-- A list is recalled, or it is found now and kept. -/
theorem load_cases (disk : Disk) (key : Option String) (c : Catalogue) :
    (∃ files, Entries.find? (scope disk c.config key) c.found = some files ∧
        c.load disk key = (files, c)) ∨
      c.load disk key = (listing disk c.config key,
        c.remember (scope disk c.config key) (listing disk c.config key)) := by
  unfold load
  cases hfound : Entries.find? (scope disk c.config key) c.found with
  | some files => exact .inl ⟨files, rfl, by simp only [hfound]⟩
  | none => exact .inr (by simp only [hfound]; rfl)

/-! ## Keys and scopes -/

section

variable {disk : Disk} {config : Config} {key key' : Option String} {package : String}

/-- A load is for one package exactly if that package takes part. -/
theorem only?_eq_some_iff : only? disk config (some package) = some package ↔ Active disk config package := by
  simp [only?, Active, Option.filter_eq_some_iff]

theorem only?_eq_none_iff : only? disk config (some package) = none ↔ ¬ Active disk config package := by
  simp [only?, Active, Option.filter_eq_none_iff]

/-- The scope of one package is its name, which determines the list. -/
theorem listing_eq_of_scope_eq (h : scope disk config key' = scope disk config key)
    (hone : scope disk config key ≠ allPackages) :
    listing disk config key' = listing disk config key := by
  have hsome : ∀ {k : Option String}, scope disk config k ≠ allPackages →
      only? disk config k = some (scope disk config k) := by
    intro k hk
    unfold scope at hk ⊢
    cases honly : only? disk config k with
    | none => simp [honly] at hk
    | some package => rfl
  have hkey := hsome hone
  have hkey' := hsome (h ▸ hone)
  unfold listing wanted
  rw [hkey, hkey', h]

/-- Under the scope of all packages there are two lists at most: that of all packages, and that of the
package which shares its name. -/
theorem listing_cases_of_shared (h : scope disk config key = allPackages) :
    listing disk config key = listing disk config none ∨
      listing disk config key = listing disk config (some allPackages) := by
  cases honly : only? disk config key with
  | none =>
    refine .inl ?_
    unfold listing wanted
    rw [honly]
    rfl
  | some package =>
    refine .inr ?_
    have hname : package = allPackages := by simpa [scope, honly] using h
    have hkey : key = some package := (Option.filter_eq_some_iff.mp honly).1
    rw [hkey, hname]

end

/-! ## Runs on an unchanged disk -/

/-- What may be asked of a catalogue. -/
inductive Call where
  | load (key : Option String)
  | clear

/-- The catalogue after a call. -/
def Call.run (disk : Disk) (c : Catalogue) : Call → Catalogue
  | .load key => (c.load disk key).2
  | .clear => c.clear

/-- A new catalogue after some calls. -/
def after (disk : Disk) (config : Config) (calls : List Call) : Catalogue :=
  calls.foldl (Call.run disk) (ofConfig config)

/-- What is kept for a scope was found for a key of that scope. -/
structure Recalls (disk : Disk) (config : Config) (c : Catalogue) : Prop where
  config_eq : c.config = config
  listed : ∀ s files, Entries.find? s c.found = some files →
    ∃ key, scope disk config key = s ∧ files = listing disk config key

section

variable {disk : Disk} {config : Config} {c : Catalogue}

/-- A catalogue without lists recalls nothing wrong. -/
theorem recalls_of_found_nil (hconfig : c.config = config) (hfound : c.found = []) :
    Recalls disk config c := by
  refine ⟨hconfig, fun s files hs => ?_⟩
  rw [hfound] at hs
  cases hs

/-- Every call keeps what is recalled right. -/
theorem Recalls.run (h : Recalls disk config c) (call : Call) : Recalls disk config (call.run disk c) := by
  cases call with
  | clear => exact recalls_of_found_nil h.config_eq rfl
  | load key =>
    change Recalls disk config (c.load disk key).2
    rcases load_cases disk key c with ⟨files, -, hload⟩ | hload
    · rw [hload]
      exact h
    · rw [hload, h.config_eq]
      refine ⟨h.config_eq, fun s files hs => ?_⟩
      rw [find?_remember] at hs
      split at hs
      · next hscope =>
        cases hs
        exact ⟨key, hscope.symm, rfl⟩
      · exact h.listed s files hs

/-- So it is right after any calls. -/
theorem recalls_after (disk : Disk) (config : Config) (calls : List Call) :
    Recalls disk config (after disk config calls) := by
  have hrun : ∀ (calls : List Call) (c : Catalogue), Recalls disk config c →
      Recalls disk config (calls.foldl (Call.run disk) c) := by
    intro calls
    induction calls with
    | nil => exact fun c hc => hc
    | cons call calls ih => exact fun c hc => ih _ (hc.run call)
  exact hrun calls _ (recalls_of_found_nil rfl rfl)

/-- Whatever was asked before, a load gives the list of some key of the same scope. -/
theorem Recalls.load (h : Recalls disk config c) (key : Option String) :
    ∃ key', scope disk config key' = scope disk config key ∧
      (c.load disk key).1 = listing disk config key' := by
  rcases load_cases disk key c with ⟨files, hfound, hload⟩ | hload
  · rw [hload]
    rw [h.config_eq] at hfound
    exact h.listed _ files hfound
  · rw [hload, h.config_eq]
    exact ⟨key, rfl, rfl⟩

end

/-- **Whether it shows that a catalogue keeps lists.** For one package it never does, unless its name is
that of the scope of all packages: whatever was loaded or cleared before, a load gives the files that a new
catalogue would find, in the same order. And it never shows for any key exactly if a package of that name,
should one take part, holds all the files there are. -/
theorem load_after_eq_fresh_iff (disk : Disk) (config : Config) :
    (∀ calls key, scope disk config key ≠ allPackages →
      ((after disk config calls).load disk key).1 = ((ofConfig config).load disk key).1) ∧
    ((∀ calls key, ((after disk config calls).load disk key).1 = ((ofConfig config).load disk key).1) ↔
      (Active disk config allPackages →
        ofPackage disk config allPackages = ((ofConfig config).load disk none).1)) := by
  have hstar : Active disk config allPackages →
      listing disk config (some allPackages) = ofPackage disk config allPackages := by
    intro hactive
    unfold listing wanted discover
    rw [only?_eq_some_iff.mpr hactive]
    simp
  refine ⟨fun calls key hone => ?_, fun h hactive => ?_, fun h calls key => ?_⟩
  · obtain ⟨key', hscope, hload⟩ := (recalls_after disk config calls).load key
    rw [hload, load_ofConfig]
    exact listing_eq_of_scope_eq hscope hone
  · -- the package is loaded first, and its list is taken for that of all packages
    have hscope : scope disk config (some allPackages) = allPackages := by
      unfold scope
      rw [only?_eq_some_iff.mpr hactive]
      rfl
    have hrecall : ((after disk config [.load (some allPackages)]).load disk none).1 =
        listing disk config (some allPackages) := by
      have hkept : after disk config [.load (some allPackages)] =
          (ofConfig config).remember allPackages (listing disk config (some allPackages)) :=
        congrArg (fun s => (ofConfig config).remember s (listing disk config (some allPackages))) hscope
      rw [hkept]
      rfl
    rw [← hstar hactive, ← hrecall]
    exact h _ none
  · obtain ⟨key', hscope, hload⟩ := (recalls_after disk config calls).load key
    rw [hload, load_ofConfig]
    by_cases hone : scope disk config key = allPackages
    · have hshared : listing disk config (some allPackages) = listing disk config none := by
        by_cases hactive : Active disk config allPackages
        · rw [hstar hactive, h hactive]
          rfl
        · unfold listing wanted
          rw [only?_eq_none_iff.mpr hactive]
          rfl
      have hsame : ∀ {k : Option String}, scope disk config k = allPackages →
          listing disk config k = listing disk config none := by
        intro k hk
        rcases listing_cases_of_shared hk with hnone | hstar
        · exact hnone
        · exact hstar.trans hshared
      rw [hsame hone, hsame (hscope.trans hone)]
    · exact listing_eq_of_scope_eq hscope hone

/-- Two packages with a source each, one of them called by a star. -/
def starDisk : Disk :=
  let package : FileTree := .folder [("Resources", .folder [("Private", .folder [("Fusion",
    .folder [("Root.fusion.json", .file ⟨#[123, 125]⟩)])])])]
  ⟨.folder [("work", .folder [("Packages", .folder [("*", package), ("Vendor.Site", package)])])], ["work"]⟩

/-- After the package called by a star was loaded, its one file stands for the files of all packages. -/
theorem load_starDisk_ne :
    ((after starDisk .standard [.load (some "*")]).load starDisk none).1 ≠
      ((ofConfig .standard).load starDisk none).1 := by
  intro h
  exact absurd (congrArg List.length h) (by decide)

end FusionInspect.Catalogue
