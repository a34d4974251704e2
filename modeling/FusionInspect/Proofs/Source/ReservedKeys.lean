import FusionInspect.Proofs.Source.PrototypeTable

/-!
# Reserved keys in parsed trees

Keys that start with two underscores are reserved, and declarations are checked for those that have no
meaning. The names in a table of prototypes are free. The rule is stated of trees by paths: a key at any
depth is KNOWN, unless it stands in a table (`Branch.KnownKeys`).

Checking walks through the document, whereas the rule is about the tree that is made from it. The two
walks meet in all objects, tables and definitions, but not in lists: a list becomes a branch, and it is
not looked into. So a source that is parsed onto a tree keeps the rule exactly if its lists do
(`Source.knownKeys_parse_iff`), and a list that does not gets past the check.

Absorbing has no part in this. A path of the new tree is one of the old tree or one of the source, and
all paths of the source are there (`IsOverlay.isSome_nodeAt?`).
-/

namespace FusionInspect

/-! ## The rule -/

/-- A key that may be declared: one that is not reserved, or has a meaning. -/
def Key.Known (key : String) : Prop :=
  ['_', '_'] <+: key.toList → key ∈ Key.reserved

/-- The keys that may be declared are those that the check does not refuse. -/
theorem Key.known_iff {key : String} : Key.Known key ↔ Key.isUnknown key = false := by
  unfold Key.Known Key.isUnknown
  rw [Bool.and_eq_false_imp, List.isPrefixOf_iff_prefix, Bool.not_eq_false', List.contains_iff_mem]

/-- Whether a path leads to a table of prototypes, from a mapping that may be a table itself. The key of
tables leads to one, but in a table it is the name of a prototype. -/
def tableAfter (table : Bool) (path : List String) : Bool :=
  path.foldl (fun table key => !table && key == Key.prototypes) table

/-- Every key at every depth below the node is known, the names in tables apart. -/
def Node.KnownKeys (table : Bool) (n : Node) : Prop :=
  ∀ path key, (n.nodeAt? (path ++ [key])).isSome → tableAfter table path = false → Key.Known key

/-- Every key at every depth of the branch is known, the names in tables apart. -/
def Branch.KnownKeys (b : Branch) : Prop :=
  Node.KnownKeys false (.branch b)

namespace Node

/-- The rule, one level at a time. -/
theorem knownKeys_iff {table : Bool} {n : Node} : n.KnownKeys table ↔
    ∀ key child, n.toBranch.get? key = some child →
      (table = false → Key.Known key) ∧ child.KnownKeys (!table && key == Key.prototypes) := by
  constructor
  · intro h key child hchild
    refine ⟨h [] key ?_, fun path k hk => h (key :: path) k ?_⟩
    · rw [List.nil_append, nodeAt?_singleton, hchild]
      rfl
    · rw [List.cons_append, Node.nodeAt?, hchild]
      exact hk
  · intro h path key hkey htable
    cases path with
    | nil =>
      rw [List.nil_append, nodeAt?_singleton] at hkey
      obtain ⟨child, hchild⟩ := Option.isSome_iff_exists.mp hkey
      exact (h key child hchild).1 htable
    | cons k path =>
      rw [List.cons_append, Node.nodeAt?] at hkey
      obtain ⟨m, hm⟩ := Option.isSome_iff_exists.mp hkey
      obtain ⟨child, hchild, hrest⟩ := Option.bind_eq_some_iff.mp hm
      exact (h k child hchild).2 path key (by rw [hrest]; rfl) htable

theorem knownKeys_scalar (table : Bool) (s : Scalar) : (Node.scalar s).KnownKeys table :=
  knownKeys_iff.mpr fun _ _ h => by cases h

/-- The rule looks at the entries of a mapping only. -/
theorem knownKeys_toBranch {n : Node} : n.toBranch.KnownKeys ↔ n.KnownKeys false := by
  rw [Branch.KnownKeys, knownKeys_iff, knownKeys_iff]
  rfl

end Node

/-! ## Absorbing -/

namespace IsOverlay

variable {covers : String → Node → Prop} {op : Branch → Branch → Branch}

/-- An overlay has no paths but those of the two branches, and has all those of the upper one. -/
theorem isSome_nodeAt? (h : IsOverlay covers op) : ∀ {path : List String} {b e : Branch}, e.WellFormed →
    (((op b e).nodeAt? path).isSome → (b.nodeAt? path).isSome ∨ (e.nodeAt? path).isSome) ∧
      ((e.nodeAt? path).isSome → ((op b e).nodeAt? path).isSome)
  | [], _, _, _ => ⟨fun _ => .inl rfl, fun _ => rfl⟩
  | key :: path, b, e, he => by
    rw [Branch.nodeAt?_cons, Branch.nodeAt?_cons, Branch.nodeAt?_cons]
    cases hk : e.get? key with
    | none =>
      rw [h.get?_absent he.1 hk]
      exact ⟨.inl, fun hnone => by cases hnone⟩
    | some n =>
      by_cases hstands : covers key n ∨ ∀ old, b.get? key = some old → old.isMapping = false
      · rw [h.get?_stands he.1 hk hstands]
        exact ⟨.inr, id⟩
      · obtain ⟨hcovers, hold⟩ := not_or.mp hstands
        obtain ⟨old, hold, hmap⟩ : ∃ old, b.get? key = some old ∧ old.isMapping = true := by
          simpa using hold
        rw [h.get?_laid he.1 hk hcovers hold hmap, hold]
        cases path with
        | nil => exact ⟨fun _ => .inl rfl, fun _ => rfl⟩
        | cons key' path =>
          simp only [Option.bind_some, Node.nodeAt?_cons, Node.toBranch_ofBranch]
          exact h.isSome_nodeAt? (he.get? hk).toBranch

end IsOverlay

/-- What is absorbed into a tree that keeps the rule decides whether the rule is kept. -/
theorem Branch.KnownKeys.absorb_iff {b e : Branch} (hb : b.KnownKeys) (he : e.WellFormed) :
    (b.absorb e).KnownKeys ↔ e.KnownKeys := by
  constructor
  · intro h path key hkey
    exact h path key ((Branch.absorb_isOverlay.isSome_nodeAt? he).2 hkey)
  · intro h path key hkey htable
    rcases (Branch.absorb_isOverlay.isSome_nodeAt? he).1 hkey with hkey | hkey
    · exact hb path key hkey htable
    · exact h path key hkey htable

/-! ## Lists of a document -/

mutual
/-- The lists in a value that stand in no other list. -/
def Json.lists : Json → List (List Json)
  | .array items => [items]
  | .object entries => Json.listsIn entries
  | _ => []
/-- The lists in the values of an object. -/
def Json.listsIn : List (String × Json) → List (List Json)
  | [] => []
  | (_, v) :: rest => v.lists ++ Json.listsIn rest
end

/-- The lists in the values of an object are those in each value. -/
theorem Json.forall_mem_listsIn {p : List Json → Prop} : ∀ {entries : List (String × Json)},
    (∀ items ∈ Json.listsIn entries, p items) ↔ ∀ e ∈ entries, ∀ items ∈ e.2.lists, p items
  | [] => by simp [Json.listsIn]
  | (k, v) :: rest => by
    rw [Json.listsIn, List.forall_mem_append, List.forall_mem_cons, Json.forall_mem_listsIn]

/-- The entries of a list are its items, at positions. -/
theorem Branch.exists_of_mem_ofItems {key : String} {n : Node} : ∀ {items : List Json} {i : Nat},
    (key, n) ∈ Branch.ofItems i items →
      ∃ (j : Nat) (v : Json), v ∈ items ∧ key = toString j ∧ n = Node.ofJson v
  | v :: rest, i, h => by
    rw [Branch.ofItems] at h
    rcases List.mem_cons.mp h with heq | hrest
    · cases heq
      exact ⟨i, v, List.mem_cons_self, rfl, rfl⟩
    · obtain ⟨j, w, hw, hkey, hn⟩ := Branch.exists_of_mem_ofItems hrest
      exact ⟨j, w, List.mem_cons_of_mem _ hw, hkey, hn⟩

/-- An object keeps the rule exactly if its keys and the nodes at them do. Below the key of tables the
next keys are free. -/
theorem Node.knownKeys_ofJson_object {entries : List (String × Json)} (hnd : (entries.map Prod.fst).Nodup)
    {table : Bool} : (Node.ofJson (.object entries)).KnownKeys table ↔
      ∀ e ∈ entries, (table = false → Key.Known e.1) ∧
        (Node.ofJson e.2).KnownKeys (!table && e.1 == Key.prototypes) := by
  rw [Node.knownKeys_iff]
  constructor
  · intro h e he
    refine h e.1 (Node.ofJson e.2) ?_
    rw [Node.get?_ofJson_object hnd, (Entries.find?_eq_some_iff_mem hnd).mpr he]
    rfl
  · intro h key child hchild
    rw [Node.get?_ofJson_object hnd] at hchild
    obtain ⟨v, hv, rfl⟩ := Option.map_eq_some_iff.mp hchild
    exact h (key, v) (Entries.mem_of_find? hv)

/-- A list keeps the rule if its items do: its own keys are numerals. -/
theorem Node.knownKeys_ofJson_array {items : List Json} (h : ∀ v ∈ items, (Node.ofJson v).KnownKeys false) :
    (Node.ofJson (.array items)).KnownKeys false := by
  rw [Node.ofJson_array, Node.knownKeys_iff]
  intro key child hchild
  obtain ⟨i, v, hv, rfl, rfl⟩ := Branch.exists_of_mem_ofItems (Entries.mem_of_find? hchild)
  have hkey : (toString i == Key.prototypes) = false := by
    refine beq_eq_false_iff_ne.mpr fun heq => underscore_not_mem_toString i ?_
    rw [heq]
    decide
  refine ⟨fun _ hreserved => ?_, ?_⟩
  · exact absurd (hreserved.subset List.mem_cons_self) (underscore_not_mem_toString i)
  · rw [hkey]
    exact h v hv

namespace Source

/-- The lists in the value keep the rule. -/
def ListsKnown (v : Json) : Prop :=
  ∀ items ∈ v.lists, (Node.ofJson (.array items)).KnownKeys false

/-- The lists in an object keep the rule exactly if those in each value do. -/
theorem listsKnown_object {entries : List (String × Json)} :
    ListsKnown (.object entries) ↔ ∀ e ∈ entries, ListsKnown e.2 := by
  unfold ListsKnown
  rw [Json.lists]
  exact Json.forall_mem_listsIn

/-! ## What is checked -/

/-- The definitions of a table were checked as declarations. -/
theorem checkValue_of_checkDefinition {name : String} {d : Json} (h : checkDefinition name d = .ok ()) :
    checkValue (prototypePath name) d = .ok () := by
  cases d with
  | object definition =>
    unfold checkDefinition at h
    obtain ⟨_, _, hentries⟩ := exists_of_bind_eq_ok h
    unfold checkValue
    exact hentries
  | _ => unfold checkDefinition at h; cases h

/-- A value that passed the check keeps the rule exactly if its lists do, be it declarations or a table. -/
theorem knownKeys_iff_listsKnown {v : Json} (hkeys : v.DistinctKeys) :
    (∀ {path}, checkValue path v = .ok () → ((Node.ofJson v).KnownKeys false ↔ ListsKnown v)) ∧
      ∀ {path}, checkTable path v = .ok () → ((Node.ofJson v).KnownKeys true ↔ ListsKnown v) := by
  induction hkeys with
  | @array items _ _ =>
    refine ⟨fun _ => ?_, fun h => ?_⟩
    · unfold ListsKnown
      rw [Json.lists, List.forall_mem_singleton]
    · unfold checkTable at h
      cases h
  | @object entries hnd hvalues ih =>
    rw [listsKnown_object]
    refine ⟨fun h => ?_, fun h => ?_⟩
    · unfold checkValue at h
      rw [Node.knownKeys_ofJson_object hnd]
      refine forall₂_congr fun e he => ?_
      obtain ⟨hknown, path, hchecked⟩ := checkEntries_of_mem h e he
      rw [and_iff_right fun _ => Key.known_iff.mpr hknown]
      -- the key of tables changes what is expected below it
      cases hkey : e.1 == Key.prototypes with
      | true =>
        rw [hkey] at hchecked
        exact (ih e he).2 hchecked
      | false =>
        rw [hkey] at hchecked
        exact (ih e he).1 hchecked
    · unfold checkTable at h
      rw [Node.knownKeys_ofJson_object hnd]
      refine forall₂_congr fun e he => ?_
      rw [and_iff_right fun htable => by cases htable]
      exact (ih e he).1 (checkValue_of_checkDefinition (checkDefinition_of_mem h he))
  | _ =>
    refine ⟨fun _ => ?_, fun h => ?_⟩
    · rw [Node.ofJson]
      exact iff_of_true (Node.knownKeys_scalar _ _) fun _ hitems => absurd hitems List.not_mem_nil
    · unfold checkTable at h
      cases h

/-- The lists in the document of a source that stand in no other list. -/
def listsOf (source : String) : List (List Json) :=
  match Json.parse source with
  | .ok v => v.lists
  | .error _ => []

/-- **Unknown reserved keys get past the check in lists, and only there.** Parse any source onto a tree
in which every key that starts with two underscores is one of those that have a meaning, the names in
tables of prototypes apart. If this succeeds then the new tree is such a tree again exactly if the same
holds within each list of the source. -/
theorem knownKeys_parse_iff {label source : String} {t u : ObjectTree} (h : parse label source t = .ok u)
    (ht : t.root.KnownKeys) :
    u.root.KnownKeys ↔ ∀ items ∈ listsOf source, (Node.ofJson (.array items)).KnownKeys false := by
  obtain ⟨entries, hentries, habsorb⟩ := exists_of_bind_eq_ok h
  cases habsorb
  obtain ⟨hparse, hcheck⟩ := declarations_eq_ok hentries
  have hlists : listsOf source = (Json.object entries).lists := by
    rw [listsOf, hparse]
  have hvalue : checkValue "" (.object entries) = .ok () := by
    unfold checkValue
    exact hcheck
  change (t.root.absorb _).KnownKeys ↔ _
  rw [ht.absorb_iff (Node.wellFormed_ofJson _).toBranch, Node.knownKeys_toBranch, hlists]
  exact (knownKeys_iff_listsKnown (Json.distinctKeys_of_parse hparse)).1 hvalue

/-- A list of names keeps the rule. -/
theorem knownKeys_of_isNameList {items : List Json} (h : isNameList (.array items) = true) :
    (Node.ofJson (.array items)).KnownKeys false := by
  obtain ⟨names, rfl⟩ := exists_names_of_isNameList h
  refine Node.knownKeys_ofJson_array fun v hv => ?_
  obtain ⟨name, -, rfl⟩ := List.mem_map.mp hv
  rw [Node.ofJson]
  exact Node.knownKeys_scalar _ _

/-- A source with a table, in which a prototype is named like a key without meaning and has a chain. -/
def chainSource : String :=
  "\x7b\"__prototypes\":\x7b\"__link\":\x7b\"__prototypeChain\":[\"A\"],\"__meta\":\x7b\"x\":1\x7d\x7d\x7d\x7d"

/-- Parsed twice, the source gives trees that keep the rule. -/
theorem knownKeys_parse_iff_chainSource :
    ∃ t u, parse "Root.json" chainSource .empty = .ok t ∧ t.root.KnownKeys ∧
      parse "Root.json" chainSource t = .ok u ∧ u.root.KnownKeys := by
  have hlists : ∀ items ∈ listsOf chainSource, (Node.ofJson (.array items)).KnownKeys false := by
    have hnames : ((listsOf chainSource).all fun items => isNameList (.array items)) = true := by
      decide +kernel
    exact fun items hitems => knownKeys_of_isNameList (List.all_eq_true.mp hnames items hitems)
  have hempty : ObjectTree.empty.root.KnownKeys := Node.knownKeys_iff.mpr fun _ _ h => by cases h
  have hrun : (parseAll .empty [("Root.json", chainSource), ("Root.json", chainSource)]).isOk = true := by
    decide +kernel
  cases hall : parseAll .empty [("Root.json", chainSource), ("Root.json", chainSource)] with
  | error e =>
    rw [hall] at hrun
    cases hrun
  | ok u =>
    obtain ⟨t, hparse, hrest⟩ := exists_of_bind_eq_ok hall
    obtain ⟨u', hagain, hdone⟩ := exists_of_bind_eq_ok hrest
    have ht := (knownKeys_parse_iff hparse hempty).mpr hlists
    exact ⟨t, u', hparse, ht, hagain, (knownKeys_parse_iff hagain ht).mpr hlists⟩

/-- A source with a list that holds a key without meaning. -/
def listSource : String :=
  "\x7b\"list\":[\x7b\"__bogus\":1\x7d]\x7d"

/-- Its key gets past the check. -/
theorem knownKeys_parse_listSource_not : ¬ ∀ (label source : String) (t u : ObjectTree),
    parse label source t = .ok u → t.root.KnownKeys → u.root.KnownKeys := by
  intro h
  have hfound : ((parse "Root.json" listSource .empty).toOption.bind fun t =>
      t.root.nodeAt? ["list", "0", "__bogus"]).isSome = true := by
    decide +kernel
  cases hparse : parse "Root.json" listSource .empty with
  | error e =>
    rw [hparse] at hfound
    cases hfound
  | ok t =>
    rw [hparse] at hfound
    have hknown := h _ _ _ t hparse (Node.knownKeys_iff.mpr fun _ _ h => by cases h)
      ["list", "0"] "__bogus" hfound rfl
    exact absurd (hknown (by decide)) (by decide)

end Source

end FusionInspect
