import FusionInspect.Session.Basic

/-!
# Sessions and the trees they show

A session can be asked, cleared and reset, and its files can be listed and read, in any order and while
the files on disk change between any two of these steps. Whatever was done before, a tree that it shows
is the tree of some sources that were all parsed, one onto the other (`Reached.exists_sources`). So a
property of parsed trees is one of the trees of sessions.
-/

namespace FusionInspect

/-- The tree of some sources, each with its label, parsed in order onto a tree. -/
def Source.parseAll (t : ObjectTree) : List (String × String) → Except ParseError ObjectTree
  | [] => pure t
  | (label, source) :: rest => do
    let t ← parse label source t
    parseAll t rest

/-- What every source keeps, a run of sources keeps. -/
theorem Source.parseAll_keeps {p : ObjectTree → Prop}
    (hparse : ∀ {label source t u}, p t → parse label source t = .ok u → p u) :
    ∀ {sources : List (String × String)} {t u : ObjectTree}, p t → parseAll t sources = .ok u → p u
  | [], _, _, ht, h => by
    cases h
    exact ht
  | (label, source) :: rest, t, u, ht, h => by
    unfold parseAll at h
    cases hparsed : parse label source t with
    | error e =>
      rw [hparsed] at h
      cases h
    | ok t' =>
      rw [hparsed] at h
      exact parseAll_keeps hparse (hparse ht hparsed) h

/-- Reading a file changes nothing but the text that is remembered. -/
theorem SourceFile.read_snd (disk : Disk) (f : SourceFile) :
    ∃ text?, (f.read disk).2 = { f with text? } := by
  unfold SourceFile.read
  split
  · exact ⟨f.text?, rfl⟩
  · split
    · exact ⟨_, rfl⟩
    · exact ⟨f.text?, rfl⟩

theorem SourceFile.read_path (disk : Disk) (f : SourceFile) : (f.read disk).2.path = f.path := by
  obtain ⟨text?, hread⟩ := f.read_snd disk
  rw [hread]

namespace Session

/-- The sessions that can be reached. Each step may find other files on disk than the one before. -/
inductive Reached : Session → Prop where
  | fresh (config : Config) : Reached (.ofConfig config)
  | asked (disk : Disk) {s : Session} : Reached s → Reached (s.tree disk).2
  | listed (disk : Disk) (key : Option String) {s : Session} : Reached s →
      Reached { s with catalogue := (s.catalogue.load disk key).2 }
  | read (disk : Disk) (key : Option String) {s : Session} : Reached s →
      Reached { s with catalogue := (s.catalogue.loadTexts disk key).2 }
  | cleared {s : Session} : Reached s → Reached s.clear
  | reset {s : Session} : Reached s → Reached s.reset

/-- The tree of all files of a list: each of them was read, and parsed onto the tree of those before it. -/
def Whole (disk : Disk) (files : List SourceFile) (t : ObjectTree) : Prop :=
  ∃ texts, files.map (fun f => (f.read disk).1) = texts.map .ok ∧
    Source.parseAll .empty ((files.map SourceFile.path).zip texts) = .ok t

/-- Files that are accumulated are sources that are parsed, none left out. -/
theorem exists_texts_of_accumulate {disk : Disk} : ∀ {files : List SourceFile} {t u : ObjectTree},
    (accumulate disk t files).1 = .ok u →
      ∃ texts, files.map (fun f => (f.read disk).1) = texts.map .ok ∧
        Source.parseAll t ((files.map SourceFile.path).zip texts) = .ok u
  | [], _, _, h => by
    cases h
    exact ⟨[], rfl, rfl⟩
  | f :: rest, t, u, h => by
    unfold accumulate at h
    simp only [f.read_path] at h
    cases hread : (f.read disk).1 with
    | error e =>
      simp only [hread] at h
      cases h
    | ok text =>
      cases hparsed : Source.parse f.path text t with
      | error cause =>
        simp only [hread, hparsed] at h
        cases h
      | ok t' =>
        simp only [hread, hparsed] at h
        obtain ⟨texts, hread', hsources⟩ := exists_texts_of_accumulate h
        refine ⟨text :: texts, by simp only [List.map_cons, hread, hread'], ?_⟩
        change Source.parseAll t ((f.path, text) :: _) = _
        unfold Source.parseAll
        rw [hparsed]
        exact hsources

/-- A tree that is loaded is that of all files of the catalogue. -/
theorem whole_of_loadTree {disk : Disk} {c : Catalogue} {t : ObjectTree}
    (h : (loadTree disk c).1 = .ok t) : Whole disk (c.load disk none).1 t :=
  exists_texts_of_accumulate h

/-- So it is the tree of some sources. -/
theorem exists_sources_of_loadTree {disk : Disk} {c : Catalogue} {t : ObjectTree}
    (h : (loadTree disk c).1 = .ok t) : ∃ sources, Source.parseAll .empty sources = .ok t := by
  obtain ⟨_, _, hsources⟩ := whole_of_loadTree h
  exact ⟨_, hsources⟩

/-- A session shows the tree that it has, and nothing changes. -/
theorem tree_of_some {s : Session} {t : ObjectTree} (h : s.cache.tree? = some t) (disk : Disk) :
    s.tree disk = (.ok t, s) := by
  unfold tree TreeCache.getOrLoad
  rw [h]

/-- Without a tree it loads one and keeps it; a failure leaves none. -/
theorem tree_of_none {s : Session} (h : s.cache.tree? = none) (disk : Disk) :
    s.tree disk = ((loadTree disk s.catalogue).1,
      ⟨(loadTree disk s.catalogue).2, ⟨(loadTree disk s.catalogue).1.toOption⟩⟩) := by
  obtain ⟨catalogue, ⟨tree?⟩⟩ := s
  cases h
  unfold tree TreeCache.getOrLoad
  cases hload : loadTree disk catalogue with
  | mk outcome c =>
    cases outcome with
    | error e => rfl
    | ok t => rfl

/-- A session shows the tree that it has, or it has none and shows what it loads. Whatever tree it has
afterwards was loaded then. -/
theorem tree_cases (disk : Disk) (s : Session) :
    (∃ t, s.cache.tree? = some t ∧ s.tree disk = (.ok t, s)) ∨
      s.cache.tree? = none ∧ (s.tree disk).1 = (loadTree disk s.catalogue).1 ∧
        ∀ t, (s.tree disk).2.cache.tree? = some t → (loadTree disk s.catalogue).1 = .ok t := by
  cases hcache : s.cache.tree? with
  | some t => exact .inl ⟨t, rfl, tree_of_some hcache disk⟩
  | none =>
    rw [tree_of_none hcache]
    refine .inr ⟨rfl, rfl, fun t ht => ?_⟩
    change (loadTree disk s.catalogue).1.toOption = some t at ht
    cases hload : (loadTree disk s.catalogue).1 with
    | error e =>
      rw [hload] at ht
      cases ht
    | ok u =>
      rw [hload] at ht
      cases ht
      rfl

/-- The tree in the cache of a session was parsed from sources. -/
theorem Reached.exists_sources_of_cache {s : Session} (h : Reached s) :
    ∀ {t : ObjectTree}, s.cache.tree? = some t → ∃ sources, Source.parseAll .empty sources = .ok t := by
  induction h with
  | fresh config =>
    intro t ht
    cases ht
  | @asked disk s _ ih =>
    intro t ht
    rcases tree_cases disk s with ⟨u, hcache, htree⟩ | ⟨_, _, hload⟩
    · rw [htree] at ht
      exact ih ht
    · exact exists_sources_of_loadTree (hload t ht)
  | listed _ _ _ ih => exact ih
  | read _ _ _ ih => exact ih
  | cleared _ ih => exact ih
  | reset _ _ =>
    intro t ht
    cases ht

/-- **The tree that a session shows was parsed from sources**, one onto the other. -/
theorem Reached.exists_sources {s : Session} (h : Reached s) {disk : Disk} {t : ObjectTree}
    (ht : (s.tree disk).1 = .ok t) : ∃ sources, Source.parseAll .empty sources = .ok t := by
  rcases tree_cases disk s with ⟨u, hcache, htree⟩ | ⟨_, hload, _⟩
  · rw [htree] at ht
    cases ht
    exact h.exists_sources_of_cache hcache
  · exact exists_sources_of_loadTree (hload ▸ ht)

/-- After a question was answered from a tree, that tree is shown on any disk. -/
theorem tree_after {disk : Disk} {s : Session} {t : ObjectTree} (h : (s.tree disk).1 = .ok t)
    (disk' : Disk) : ((s.tree disk).2.tree disk').1 = .ok t := by
  cases hcache : s.cache.tree? with
  | some u =>
    rw [tree_of_some hcache] at h ⊢
    rw [tree_of_some hcache]
    exact h
  | none =>
    rw [tree_of_none hcache] at h ⊢
    have hload : (loadTree disk s.catalogue).1 = .ok t := h
    rw [tree_of_some (t := t) (by rw [hload]; rfl)]

/-- A question is put to the tree that is shown, and nothing else happens to the session. -/
theorem ask_eq {α : Type} (question : ObjectTree → Except Error α) (disk : Disk) (s : Session) :
    s.ask question disk = ((s.tree disk).1 >>= question, (s.tree disk).2) := rfl

/-- An answer comes from the tree that is shown. -/
theorem ask_eq_ok {α : Type} {question : ObjectTree → Except Error α} {disk : Disk} {s : Session} {a : α}
    (h : (s.ask question disk).1 = .ok a) : ∃ t, (s.tree disk).1 = .ok t ∧ question t = .ok a := by
  rw [ask_eq] at h
  cases htree : (s.tree disk).1 with
  | error e =>
    rw [htree] at h
    cases h
  | ok t =>
    rw [htree] at h
    exact ⟨t, rfl, h⟩

end Session

end FusionInspect
