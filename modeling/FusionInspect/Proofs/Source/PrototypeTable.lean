import FusionInspect.Proofs.Outcome
import FusionInspect.Proofs.Session.Reached
import FusionInspect.Proofs.Tree.Accumulation
import FusionInspect.Proofs.Tree.OfJson

/-!
# The table of prototypes

Prototypes are looked up leniently. A table that is no branch counts as empty, a chain that is neither a
list nor a text counts as one without names, and items of a chain that are no texts are passed over. For
trees of sources that were parsed no such allowance is ever made (`Source.tabled_of_parseAll`):
the table is a branch of mappings, and the chain of a prototype is the list of names that the last
source to declare one has written, item by item.

A root is TABLED when its table, if it has one, is a branch of mappings. Checked declarations are
tabled, and absorbing keeps roots so: a branch of mappings is never classified as a wrapper. On the way
from a tabled root to the chain of a prototype nothing covers, so a source touches that path only by
declaring a chain, and a chain gives way as a whole.
-/

namespace FusionInspect

open ObjectTree (Replaces)

/-! ## Tabled roots -/

namespace Branch

/-- The table of prototypes is absent, or a branch of mappings. -/
def Tabled (root : Branch) : Prop :=
  ∀ n, root.get? Key.prototypes = some n →
    ∃ table : Branch, n = .branch table ∧ ∀ e ∈ table, e.2.isMapping = true

/-- The slots of a wrapper hold scalars. -/
theorem not_wrapperShaped_of_mappings {b : Branch} (h : ∀ e ∈ b, e.2.isMapping = true) :
    ¬ b.WrapperShaped := by
  intro hshape
  obtain ⟨v, hv, _⟩ := hshape.2 .objectType
  cases h _ (Entries.mem_of_find? hv)

/-- A table of mappings that absorbs one is a table of mappings. -/
theorem isMapping_of_mem_absorb {b c : Branch} (hb : ∀ e ∈ b, e.2.isMapping = true)
    (hc : ∀ e ∈ c, e.2.isMapping = true) : ∀ e ∈ b.absorb c, e.2.isMapping = true := by
  intro e he
  rw [absorb_eq_combine] at he
  rcases mem_combine he with he | ⟨old, n, hn, heq⟩
  · exact hb e he
  · rw [heq]
    by_cases hstands : Replaces e.1 n ∨ ∀ o, old = some o → o.isMapping = false
    · rw [Node.absorbed_stands hstands]
      exact hc _ hn
    · obtain ⟨hreplaces, hold⟩ := not_or.mp hstands
      obtain ⟨o, rfl, hmap⟩ : ∃ o, old = some o ∧ o.isMapping = true := by simpa using hold
      rw [Node.absorbed_laid hreplaces hmap]
      exact Node.isMapping_ofBranch _

/-- A table never replaces an earlier one whole. -/
theorem not_replaces_prototypes (table : Branch) : ¬ Replaces Key.prototypes (.branch table) := by
  rintro (⟨s, hs⟩ | hkey)
  · cases hs
  · exact absurd hkey (by decide)

/-- A tabled root that absorbs one stays tabled. -/
theorem Tabled.absorb {b e : Branch} (hb : b.Tabled) (he : e.Tabled) (hnd : e.keys.Nodup) :
    (b.absorb e).Tabled := by
  intro n hn
  cases hdeclared : e.get? Key.prototypes with
  | none =>
    rw [absorb_isOverlay.get?_absent hnd hdeclared] at hn
    exact hb n hn
  | some m =>
    obtain ⟨table, rfl, htable⟩ := he m hdeclared
    cases hbase : b.get? Key.prototypes with
    | none =>
      rw [absorb_isOverlay.get?_stands hnd hdeclared (.inr fun old hold => by
        rw [hbase] at hold
        cases hold)] at hn
      cases hn
      exact ⟨table, rfl, htable⟩
    | some old =>
      -- two tables are laid over each other, and what comes out is classified anew
      obtain ⟨base, rfl, hmappings⟩ := hb old hbase
      have hall := isMapping_of_mem_absorb hmappings htable
      rw [absorb_isOverlay.get?_laid hnd hdeclared (not_replaces_prototypes table) hbase rfl] at hn
      cases hn
      exact ⟨_, Node.ofBranch_of_not_shaped (not_wrapperShaped_of_mappings hall), hall⟩

/-- The path to the chain of a prototype. -/
def chainPath (name : String) : List String :=
  [Key.prototypes, name, Key.prototypeChain]

/-- Whatever touches the path to a chain has a chain there. -/
theorem Tabled.isSome_of_touches {e : Branch} (he : e.Tabled) {name : String}
    (hname : name ≠ Key.prototypeChain) (h : e.Touches Replaces (chainPath name)) :
    (e.nodeAt? (chainPath name)).isSome := by
  obtain ⟨n, hn, hreach⟩ := touches_cons.mp h
  obtain ⟨table, rfl, htable⟩ := he n hn
  -- neither the table nor a definition covers, so the path is touched at its end
  have hreach := hreach.resolve_left (not_replaces_prototypes table)
  obtain ⟨d, hd, hreach⟩ := touches_cons.mp hreach
  have hmapping := htable _ (Entries.mem_of_find? hd)
  have hcovers : ¬ Replaces name d := by
    rintro (⟨s, rfl⟩ | hkey)
    · cases hmapping
    · exact hname hkey
  obtain ⟨chain, hchain, _⟩ := touches_cons.mp (hreach.resolve_left hcovers)
  have hat : e.nodeAt? (chainPath name) = some chain := by
    refine Option.bind_eq_some_iff.mpr ⟨_, hn, Option.bind_eq_some_iff.mpr ⟨d, hd, ?_⟩⟩
    exact Option.bind_eq_some_iff.mpr ⟨chain, hchain, rfl⟩
  rw [hat]
  rfl

/-- The chain that is absorbed stands before the one that was there. -/
theorem Tabled.nodeAt?_absorb {e : Branch} (he : e.Tabled) (hwf : e.WellFormed) {name : String}
    (hname : name ≠ Key.prototypeChain) (b : Branch) : (b.absorb e).nodeAt? (chainPath name) =
      (e.nodeAt? (chainPath name)).or (b.nodeAt? (chainPath name)) :=
  absorb_isOverlay.nodeAt?_eq_or
    (fun _ => .inr ⟨[Key.prototypes, name], Key.prototypeChain, rfl, fun _ => .inr rfl⟩) hwf
    (he.isSome_of_touches hname) b

end Branch

namespace ObjectTree

/-- The chain of a prototype, if there is such a prototype and it has one. -/
def chain? (t : ObjectTree) (name : String) : Option (List String) :=
  (t.prototype? name).bind fun definition => definition.toBranch.chain?

/-- All prototypes of a tabled tree are mappings. -/
theorem isMapping_of_mem_prototypes {t : ObjectTree} (ht : t.root.Tabled) :
    ∀ e ∈ t.prototypes, e.2.isMapping = true := by
  intro e he
  unfold prototypes at he
  split at he
  · next table htable =>
    obtain ⟨_, heq, hall⟩ := ht _ htable
    cases heq
    exact hall e he
  · cases he

/-- In a tabled tree the path to a chain goes through the table. -/
theorem nodeAt?_chainPath {t : ObjectTree} (ht : t.root.Tabled) (name : String) :
    t.root.nodeAt? (Branch.chainPath name) =
      (t.prototype? name).bind fun definition => definition.toBranch.get? Key.prototypeChain := by
  unfold prototype? prototypes Branch.chainPath
  rw [Branch.nodeAt?_cons]
  cases hroot : t.root.get? Key.prototypes with
  | none => rfl
  | some n =>
    obtain ⟨table, rfl, _⟩ := ht n hroot
    change (table.get? name).bind _ = (table.get? name).bind _
    exact Option.bind_congr fun definition _ => Node.nodeAt?_singleton definition _

/-- A prototype without an entry for its chain has no chain. -/
theorem chain?_eq_none (t : ObjectTree) {name : String}
    (h : ((t.prototype? name).bind fun d => d.toBranch.get? Key.prototypeChain) = none) :
    t.chain? name = none := by
  refine Option.bind_eq_none_iff.mpr fun definition hdefinition => ?_
  unfold Branch.chain?
  rw [Option.bind_eq_none_iff.mp h definition hdefinition]

/-- A chain that is a list of names is these names, in order. -/
theorem chain?_of_list (t : ObjectTree) {name : String} {names : List String}
    (h : ((t.prototype? name).bind fun d => d.toBranch.get? Key.prototypeChain) =
      some (.branch (Branch.ofItems 0 (names.map .string)))) : t.chain? name = some names := by
  obtain ⟨definition, hdefinition, hchain⟩ := Option.bind_eq_some_iff.mp h
  refine Option.bind_eq_some_iff.mpr ⟨definition, hdefinition, ?_⟩
  unfold Branch.chain?
  rw [hchain]
  exact congrArg some (Branch.filterMap_text?_ofItems names 0)

end ObjectTree

/-! ## Checked declarations -/

/-- The value at a key of an object. -/
def Json.member? (key : String) : Json → Option Json
  | .object entries => Entries.find? key entries
  | _ => none

namespace Source

/-- The chain that a source declares for a prototype, whatever is written there. -/
def declaredChain? (name source : String) : Option Json := do
  let document ← (Json.parse source).toOption
  let table ← document.member? Key.prototypes
  let definition ← table.member? name
  definition.member? Key.prototypeChain

/-- The test for a list of names lets nothing else pass. -/
theorem exists_names_of_isNameList : ∀ {items : List Json}, isNameList (.array items) = true →
    ∃ names : List String, items = names.map .string
  | [], _ => ⟨[], rfl⟩
  | item :: rest, h => by
    cases item with
    | string name =>
      have hrest : isNameList (.array rest) = true := h
      obtain ⟨names, rfl⟩ := exists_names_of_isNameList hrest
      exact ⟨name :: names, rfl⟩
    | _ => cases h

/-- In a definition that passes, the chain is a list of names. -/
theorem checkChain_eq_ok {name : String} {definition : List (String × Json)} {chain : Json}
    (h : checkChain name definition = .ok ())
    (hchain : Entries.find? Key.prototypeChain definition = some chain) :
    ∃ names : List String, chain = .array (names.map .string) := by
  unfold checkChain at h
  rw [hchain] at h
  dsimp only at h
  split at h
  · next hlist =>
    cases chain with
    | array items =>
      obtain ⟨names, rfl⟩ := exists_names_of_isNameList hlist
      exact ⟨names, rfl⟩
    | _ => cases hlist
  · cases h

/-- A definition that passes is an object with a chain that passes. -/
theorem checkDefinition_eq_ok {name : String} {d : Json} (h : checkDefinition name d = .ok ()) :
    ∃ definition, d = .object definition ∧ checkChain name definition = .ok () := by
  cases d with
  | object definition =>
    unfold checkDefinition at h
    obtain ⟨_, hchain, _⟩ := exists_of_bind_eq_ok h
    exact ⟨definition, rfl, hchain⟩
  | _ => unfold checkDefinition at h; cases h

/-- In a table that passes, each definition does. -/
theorem checkDefinition_of_mem {name : String} {d : Json} : ∀ {table : List (String × Json)},
    checkDefinitions table = .ok () → (name, d) ∈ table → checkDefinition name d = .ok ()
  | (name', d') :: rest, h, hmem => by
    unfold checkDefinitions at h
    obtain ⟨_, hfirst, hrest⟩ := exists_of_bind_eq_ok h
    rcases List.mem_cons.mp hmem with heq | hmem
    · cases heq
      exact hfirst
    · exact checkDefinition_of_mem hrest hmem

/-- A table that passes is an object of definitions that pass. -/
theorem checkTable_eq_ok {path : String} {v : Json} (h : checkTable path v = .ok ()) :
    ∃ table, v = .object table ∧ checkDefinitions table = .ok () := by
  cases v with
  | object table =>
    unfold checkTable at h
    exact ⟨table, rfl, h⟩
  | _ => unfold checkTable at h; cases h

/-- Each entry was checked: its key, and its value as a table or as declarations. -/
theorem checkEntries_of_mem {path : String} : ∀ {entries : List (String × Json)},
    checkEntries path entries = .ok () → ∀ e ∈ entries, Key.isUnknown e.1 = false ∧
      ∃ path', (if e.1 == Key.prototypes then checkTable path' e.2 else checkValue path' e.2) = .ok ()
  | [], _ => fun _ he => absurd he List.not_mem_nil
  | (key, v) :: rest, h => by
    unfold checkEntries at h
    dsimp only at h
    split at h
    · cases h
    next hknown =>
    have hvalue : (if key == Key.prototypes then checkTable (childPath path key) v
        else checkValue (childPath path key) v) = .ok () ∧ checkEntries path rest = .ok () := by
      split at h
      · next hkey =>
        obtain ⟨_, htable, hrest⟩ := exists_of_bind_eq_ok h
        exact ⟨(if_pos hkey).trans htable, hrest⟩
      · next hkey =>
        obtain ⟨_, hvalue, hrest⟩ := exists_of_bind_eq_ok h
        exact ⟨(if_neg hkey).trans hvalue, hrest⟩
    exact List.forall_mem_cons.mpr ⟨⟨Bool.eq_false_iff.mpr hknown, _, hvalue.1⟩,
      checkEntries_of_mem hvalue.2⟩

/-- A table of definitions that are objects, in each of which a chain is a list of names. -/
structure SoundTable (table : List (String × Json)) : Prop where
  nodup : (table.map Prod.fst).Nodup
  definitions : ∀ e ∈ table, ∃ definition, e.2 = .object definition ∧
    (definition.map Prod.fst).Nodup ∧
      ∀ chain, Entries.find? Key.prototypeChain definition = some chain →
        ∃ names : List String, chain = .array (names.map .string)

/-- What checking makes sure of. -/
theorem exists_soundTable {entries : List (String × Json)} (hkeys : (Json.object entries).DistinctKeys)
    (hcheck : checkEntries "" entries = .ok ()) {v : Json}
    (hv : Entries.find? Key.prototypes entries = some v) : ∃ table, v = .object table ∧ SoundTable table := by
  have hmem := Entries.mem_of_find? hv
  obtain ⟨-, path, hchecked⟩ := checkEntries_of_mem hcheck _ hmem
  have htable : checkTable path v = .ok () := (if_pos (beq_self_eq_true _)).symm.trans hchecked
  obtain ⟨table, rfl, hdefinitions⟩ := checkTable_eq_ok htable
  cases hkeys with
  | object _ hvalues =>
    cases hvalues _ hmem with
    | object hnd hchildren =>
      refine ⟨table, rfl, hnd, fun e he => ?_⟩
      obtain ⟨definition, hobject, hchain⟩ :=
        checkDefinition_eq_ok (checkDefinition_of_mem hdefinitions he)
      have hdistinct := hchildren e he
      rw [hobject] at hdistinct
      cases hdistinct with
      | object hnd _ => exact ⟨definition, hobject, hnd, fun chain => checkChain_eq_ok hchain⟩

namespace SoundTable

variable {table : List (String × Json)}

/-- All definitions of a sound table are mappings. -/
theorem isMapping (h : SoundTable table) :
    ∀ e ∈ table.map fun e => (e.1, Node.ofJson e.2), e.2.isMapping = true := by
  intro e he
  obtain ⟨d, hd, rfl⟩ := List.mem_map.mp he
  obtain ⟨definition, hobject, _⟩ := h.definitions d hd
  rw [hobject, Node.ofJson]
  exact Node.isMapping_ofBranch _

/-- A sound table is read as a branch, and never as a wrapper. -/
theorem ofJson_eq (h : SoundTable table) :
    Node.ofJson (.object table) = .branch (table.map fun e => (e.1, Node.ofJson e.2)) := by
  have hbranch := Node.toBranch_ofJson_object h.nodup
  rw [Node.ofJson, Node.toBranch_ofBranch] at hbranch
  rw [Node.ofJson, hbranch]
  exact Node.ofBranch_of_not_shaped (Branch.not_wrapperShaped_of_mappings h.isMapping)

/-- The chain of a definition in the tree is the one that is written. -/
theorem nodeAt?_ofJson (h : SoundTable table) (name : String) :
    (Node.ofJson (.object table)).nodeAt? [name, Key.prototypeChain] =
      ((Entries.find? name table).bind (Json.member? Key.prototypeChain)).map Node.ofJson := by
  change ((Node.ofJson (.object table)).toBranch.get? name).bind _ = _
  rw [Node.get?_ofJson_object h.nodup]
  cases hname : Entries.find? name table with
  | none => rfl
  | some d =>
    obtain ⟨definition, hobject, hnd, _⟩ := h.definitions _ (Entries.mem_of_find? hname)
    cases hobject
    exact (Node.nodeAt?_singleton _ _).trans (Node.get?_ofJson_object hnd _)

end SoundTable

/-! ## Sources -/

/-- A branch that a source adds to a tree: its table is sound, and its chains are those that the source
declares, which are lists of names. -/
structure Layer (source : String) (layer : Branch) : Prop where
  wellFormed : layer.WellFormed
  tabled : layer.Tabled
  nodeAt? : ∀ name, layer.nodeAt? (Branch.chainPath name) = (declaredChain? name source).map Node.ofJson
  names : ∀ name chain, declaredChain? name source = some chain →
    ∃ names : List String, chain = .array (names.map .string)

/-- The declarations of a source are the checked entries of the object that it holds. -/
theorem declarations_eq_ok {label source : String} {entries : List (String × Json)}
    (h : declarations label source = .ok entries) :
    Json.parse source = .ok (.object entries) ∧ checkEntries "" entries = .ok () := by
  unfold declarations at h
  split at h
  · cases h
  · next found hparse =>
    obtain ⟨_, hcheck, hfound⟩ := exists_of_bind_eq_ok h
    cases hfound
    exact ⟨hparse, hcheck⟩
  · cases h

/-- The declared chain is found in the object that the source holds. -/
theorem declaredChain?_of_parse {source : String} {entries : List (String × Json)}
    (h : Json.parse source = .ok (.object entries)) (name : String) :
    declaredChain? name source = (Entries.find? Key.prototypes entries).bind fun table =>
      (table.member? name).bind (Json.member? Key.prototypeChain) := by
  unfold declaredChain?
  rw [h]
  rfl

/-- The declarations of a source make a layer. -/
theorem layer_of_declarations {label source : String} {entries : List (String × Json)}
    (h : declarations label source = .ok entries) :
    Layer source (Node.ofJson (.object entries)).toBranch := by
  obtain ⟨hparse, hcheck⟩ := declarations_eq_ok h
  have hkeys := Json.distinctKeys_of_parse hparse
  have hnd : (entries.map Prod.fst).Nodup := by
    cases hkeys with
    | object hnd _ => exact hnd
  refine ⟨(Node.wellFormed_ofJson _).toBranch, fun n hn => ?_, fun name => ?_, fun name chain => ?_⟩
  · rw [Node.get?_ofJson_object hnd] at hn
    obtain ⟨v, hv, rfl⟩ := Option.map_eq_some_iff.mp hn
    obtain ⟨table, rfl, hsound⟩ := exists_soundTable hkeys hcheck hv
    exact ⟨_, hsound.ofJson_eq, hsound.isMapping⟩
  · rw [declaredChain?_of_parse hparse, Branch.chainPath, Branch.nodeAt?_cons,
      Node.get?_ofJson_object hnd]
    cases hv : Entries.find? Key.prototypes entries with
    | none => rfl
    | some v =>
      obtain ⟨table, rfl, hsound⟩ := exists_soundTable hkeys hcheck hv
      exact hsound.nodeAt?_ofJson name
  · rw [declaredChain?_of_parse hparse]
    intro hchain
    obtain ⟨v, hv, hchain⟩ := Option.bind_eq_some_iff.mp hchain
    obtain ⟨table, rfl, hsound⟩ := exists_soundTable hkeys hcheck hv
    obtain ⟨d, hd, hchain⟩ := Option.bind_eq_some_iff.mp hchain
    obtain ⟨definition, hobject, _, hnames⟩ := hsound.definitions _ (Entries.mem_of_find? hd)
    cases hobject
    exact hnames chain hchain

/-- Parsing a source adds a layer to the tree. -/
theorem exists_layer_of_parse {label source : String} {t u : ObjectTree}
    (h : parse label source t = .ok u) : ∃ layer, Layer source layer ∧ u.root = t.root.absorb layer := by
  obtain ⟨entries, hentries, habsorb⟩ := exists_of_bind_eq_ok h
  cases habsorb
  exact ⟨_, layer_of_declarations hentries, rfl⟩

/-- A run of sources absorbs the layer of the first and goes on with the rest. -/
theorem exists_layer_of_parseAll_cons {s : String × String} {rest : List (String × String)}
    {t u : ObjectTree} (h : parseAll t (s :: rest) = .ok u) :
    ∃ layer t', Layer s.2 layer ∧ t'.root = t.root.absorb layer ∧ parseAll t' rest = .ok u := by
  unfold parseAll at h
  obtain ⟨t', hparse, hrest⟩ := exists_of_bind_eq_ok h
  obtain ⟨layer, hlayer, hroot⟩ := exists_layer_of_parse hparse
  exact ⟨layer, t', hlayer, hroot, hrest⟩

/-- The chain of the last source that declares one for a prototype. -/
def lastChain? (name : String) (sources : List (String × String)) : Option Json :=
  (sources.filterMap fun s => declaredChain? name s.2).getLast?

/-- A later source that declares a chain comes before an earlier one. -/
theorem lastChain?_cons (name : String) (s : String × String) (sources : List (String × String)) :
    lastChain? name (s :: sources) = (lastChain? name sources).or (declaredChain? name s.2) := by
  unfold lastChain?
  rw [List.filterMap_cons]
  cases declaredChain? name s.2 with
  | none => rw [Option.or_none]
  | some chain =>
    rw [List.getLast?_cons]
    cases (sources.filterMap fun s => declaredChain? name s.2).getLast? with
    | none => rfl
    | some last => rfl

/-- A run of sources onto a tabled tree keeps it tabled, and the chain of a prototype comes from the last
source that declares one. -/
theorem tabled_of_parseAll : ∀ {sources : List (String × String)} {t u : ObjectTree}, t.root.Tabled →
    parseAll t sources = .ok u → u.root.Tabled ∧ ∀ name, name ≠ Key.prototypeChain →
      u.root.nodeAt? (Branch.chainPath name) =
        ((lastChain? name sources).map Node.ofJson).or (t.root.nodeAt? (Branch.chainPath name))
  | [], _, _, ht, h => by
    cases h
    exact ⟨ht, fun _ _ => rfl⟩
  | s :: rest, t, u, ht, h => by
    obtain ⟨layer, t', hlayer, hroot, hrest⟩ := exists_layer_of_parseAll_cons h
    have ht' : t'.root.Tabled := by
      rw [hroot]
      exact ht.absorb hlayer.tabled hlayer.wellFormed.1
    obtain ⟨hu, hchains⟩ := tabled_of_parseAll ht' hrest
    refine ⟨hu, fun name hname => ?_⟩
    -- chains of the rest stand before the one of this source, and that one before what was there
    rw [hchains name hname, hroot, hlayer.tabled.nodeAt?_absorb hlayer.wellFormed hname,
      hlayer.nodeAt? name, lastChain?_cons, Option.map_or, Option.or_assoc]

/-- Each of the sources that were parsed has a layer. -/
theorem exists_layer_of_mem : ∀ {sources : List (String × String)} {t u : ObjectTree},
    parseAll t sources = .ok u → ∀ s ∈ sources, ∃ layer, Layer s.2 layer
  | [], _, _, _ => fun _ hs => absurd hs List.not_mem_nil
  | _ :: _, _, _, h => by
    obtain ⟨layer, t', hlayer, _, hrest⟩ := exists_layer_of_parseAll_cons h
    exact List.forall_mem_cons.mpr ⟨⟨layer, hlayer⟩, exists_layer_of_mem hrest⟩

/-- So the chain that was declared last is a list of names. -/
theorem exists_names_of_lastChain? {sources : List (String × String)} {t u : ObjectTree}
    (h : parseAll t sources = .ok u) {name : String} {chain : Json}
    (hchain : lastChain? name sources = some chain) :
    ∃ names : List String, chain = .array (names.map .string) := by
  obtain ⟨s, hs, hdeclared⟩ := List.mem_filterMap.mp (List.mem_of_getLast? hchain)
  obtain ⟨layer, hlayer⟩ := exists_layer_of_mem h s hs
  exact hlayer.names name chain hdeclared

/-- **Chains are as they were last declared.** In the tree of any sources that were parsed in order the
table of prototypes is absent or a branch, and every definition in it is a mapping. A prototype has a
chain exactly if some source declares one for it. Its names are then those that the last such source
lists, all of them in order and with repetitions, and the list stands in the tree as a branch. A
prototype that is named like the key of chains is left out: a later definition replaces it whole. -/
theorem chains_as_last_declared {sources : List (String × String)} {t : ObjectTree}
    (h : parseAll .empty sources = .ok t) :
    (t.root.get? Key.prototypes = none ∨
      ∃ table, t.root.get? Key.prototypes = some (.branch table)) ∧
    (∀ e ∈ t.prototypes, e.2.isMapping = true) ∧
    ∀ name, name ≠ Key.prototypeChain →
      lastChain? name sources = (t.chain? name).map (fun names => .array (names.map .string)) ∧
      ∀ names, t.chain? name = some names →
        ∃ definition, t.prototype? name = some definition ∧
          definition.toBranch.get? Key.prototypeChain =
            some (.branch (Branch.ofItems 0 (names.map .string))) := by
  obtain ⟨htabled, hchains⟩ := tabled_of_parseAll (t := .empty) (fun n hn => by cases hn) h
  refine ⟨?_, ObjectTree.isMapping_of_mem_prototypes htabled, fun name hname => ?_⟩
  · cases hroot : t.root.get? Key.prototypes with
    | none => exact .inl rfl
    | some n =>
      obtain ⟨table, rfl, _⟩ := htabled n hroot
      exact .inr ⟨table, rfl⟩
  · have hat := hchains name hname
    rw [ObjectTree.nodeAt?_chainPath htabled] at hat
    cases hlast : lastChain? name sources with
    | none =>
      rw [hlast] at hat
      have hnone := t.chain?_eq_none hat
      rw [hnone]
      exact ⟨rfl, fun names hnames => by cases hnames⟩
    | some chain =>
      obtain ⟨names, rfl⟩ := exists_names_of_lastChain? h hlast
      rw [hlast, Option.map_some, Node.ofJson_array, Option.some_or] at hat
      rw [t.chain?_of_list hat]
      refine ⟨rfl, fun names' hnames => ?_⟩
      cases hnames
      exact Option.bind_eq_some_iff.mp hat

/-- Two sources that declare a chain for one prototype, the second with a name twice. -/
def linkSources : List (String × String) :=
  [("Stub.json", "\x7b\"__prototypes\":\x7b\"Link\":\x7b\"__prototypeChain\":[\"Stub\"]\x7d\x7d\x7d"),
   ("Link.json",
    "\x7b\"__prototypes\":\x7b\"Link\":\x7b\"__prototypeChain\":[\"B\",\"A\",\"B\"]\x7d\x7d\x7d")]

/-- The chain is the second source's, and nothing of the first is left in it. -/
theorem chains_as_last_declared_linkSources :
    ∃ t, parseAll .empty linkSources = .ok t ∧ t.chain? "Link" = some ["B", "A", "B"] ∧
      lastChain? "Link" linkSources = some (.array [.string "B", .string "A", .string "B"]) := by
  have hrun : (parseAll .empty linkSources).toOption.bind (fun t => t.chain? "Link") =
      some ["B", "A", "B"] := by
    decide +kernel
  cases hparse : parseAll .empty linkSources with
  | error e =>
    rw [hparse] at hrun
    cases hrun
  | ok t =>
    rw [hparse] at hrun
    have hchain : t.chain? "Link" = some ["B", "A", "B"] := hrun
    obtain ⟨_, _, hchains⟩ := chains_as_last_declared hparse
    refine ⟨t, rfl, hchain, ?_⟩
    rw [(hchains "Link" (by decide)).1, hchain]
    rfl

end Source

end FusionInspect
