import FusionInspect.Proofs.Path.Pieces
import FusionInspect.Proofs.Session.Reached

/-!
# Addresses

A path is a text, and what it leads to is found by the steps that the text is divided into. An ADDRESS
comes from the other side: it is a list of steps, each a plain key or the name of a prototype, written
down with dots between them. Names may hold dots and parentheses, as long as these are balanced.

Every address is divided into the steps that it was written from (`split_address`), and each step is told
apart from the other kind (`step?_text`). So the part of a tree at an address is what the keys of its
steps lead to, from branch to branch (`follow?_text`). A wrapper is no branch: it can be the end of an
address, but nothing is found below it.
-/

namespace FusionInspect

/-! ## From branch to branch -/

/-- The node that some keys lead to, each of them a key of the branch reached so far. -/
def Node.descend? : Node → List String → Option Node
  | n, [] => some n
  | .branch b, key :: keys => (Branch.get? b key).bind fun child => child.descend? keys
  | _, _ :: _ => none

namespace Node

/-- Nothing is found below what is no branch. -/
theorem descend?_of_not_branch {n : Node} (h : n.branch? = none) (key : String) (keys : List String) :
    n.descend? (key :: keys) = none := by
  cases n with
  | scalar s => rfl
  | wrapper w => rfl
  | branch b => cases h

/-- Going down by some keys and then by others is going down by all of them. -/
theorem descend?_append (n : Node) (first second : List String) :
    n.descend? (first ++ second) = (n.descend? first).bind fun child => child.descend? second := by
  induction first generalizing n with
  | nil => cases n <;> rfl
  | cons key first ih =>
    cases n with
    | scalar s => rfl
    | wrapper w => rfl
    | branch b =>
      change (Branch.get? b key).bind _ = ((Branch.get? b key).bind _).bind _
      rw [Option.bind_assoc]
      exact Option.bind_congr fun child _ => ih child

/-- Keys lead nowhere exactly if one of them is missing in the branch where it is looked for, or is looked
for in something else. -/
theorem descend?_eq_none_iff {n : Node} {keys : List String} :
    n.descend? keys = none ↔ ∃ front key back m, keys = front ++ key :: back ∧
      n.descend? front = some m ∧ ∀ b : Branch, m = .branch b → b.get? key = none := by
  constructor
  · intro h
    induction keys generalizing n with
    | nil => cases n <;> cases h
    | cons key keys ih =>
      by_cases hstop : ∀ b : Branch, n = .branch b → b.get? key = none
      · exact ⟨[], key, keys, n, rfl, by cases n <;> rfl, hstop⟩
      · obtain ⟨b, rfl, child, hchild⟩ :
            ∃ b : Branch, n = .branch b ∧ ∃ child, b.get? key = some child := by
          simpa [Option.eq_none_iff_forall_ne_some] using hstop
        change (Branch.get? b key).bind _ = none at h
        rw [hchild] at h
        obtain ⟨front, key', back, m, rfl, hfront, hm⟩ := ih h
        refine ⟨key :: front, key', back, m, rfl, ?_, hm⟩
        change (Branch.get? b key).bind _ = some m
        rw [hchild]
        exact hfront
  · rintro ⟨front, key, back, m, rfl, hfront, hm⟩
    rw [descend?_append, hfront, Option.bind_some]
    cases m with
    | scalar s => rfl
    | wrapper w => rfl
    | branch b =>
      change (Branch.get? b key).bind _ = none
      rw [hm b rfl]
      rfl

end Node

namespace FusionPath

/-! ## Steps of an address -/

/-- A key that has no meaning in a path but itself. -/
def IsPlain (key : String) : Prop :=
  key ≠ "" ∧ '.' ∉ key.toList ∧ '(' ∉ key.toList ∧ ')' ∉ key.toList

instance (key : String) : Decidable (IsPlain key) :=
  inferInstanceAs (Decidable (_ ∧ _))

/-- A step of an address. -/
inductive Step where
  /-- To what stands at a key. -/
  | key (k : String) (plain : IsPlain k)
  /-- To the definition of a prototype. -/
  | prototype (name : String) (balanced : Balanced name.toList)

namespace Step

/-- The step as it is written in a path. -/
def text : Step → String
  | .key k _ => k
  | .prototype name _ => Source.prototypePath name

/-- The keys that the step goes through: a prototype is found by its name in the table. -/
def keys : Step → List String
  | .key k _ => [k]
  | .prototype name _ => [Key.prototypes, name]

end Step

/-- The path of some steps. -/
def address (steps : List Step) : String :=
  join (steps.map Step.text)

theorem toList_prototypePath (name : String) :
    (Source.prototypePath name).toList = "prototype(".toList ++ (name.toList ++ [')']) := by
  simp [Source.prototypePath]

/-- No step is written as nothing, so none is left out again. -/
theorem Step.text_ne_empty (s : Step) : s.text ≠ "" := by
  cases s with
  | key k plain => exact plain.1
  | prototype name balanced =>
    intro h
    have hlist := congrArg String.toList h
    rw [Step.text, toList_prototypePath] at hlist
    exact absurd hlist (List.append_ne_nil_of_left_ne_nil (by decide) _)

/-- A step is not divided, and leaves no parenthesis open. -/
theorem Step.undivided (s : Step) : Undivided 0 s.text.toList ∧ depthAfter 0 s.text.toList = 0 := by
  cases s with
  | key k plain =>
    obtain ⟨-, hdot, hopen, hclose⟩ := plain
    exact ⟨undivided_of_dotless hdot 0, depthAfter_of_free hopen hclose 0⟩
  | prototype name balanced =>
    -- the first parenthesis is open through all of the name
    have hfront : depthAfter 0 "prototype(".toList = 1 := by decide
    obtain ⟨hname, hdepth⟩ := balanced.undivided
    rw [Step.text, toList_prototypePath, undivided_append, undivided_append, depthAfter_append,
      depthAfter_append, hfront, hdepth]
    exact ⟨⟨undivided_of_dotless (by decide) 0, hname, undivided_of_dotless (by decide) 1⟩, rfl⟩

/-- The texts of steps are pieces of one text: no dot of theirs divides it, and behind each all
parentheses are closed. -/
theorem parts_texts : ∀ {steps : List Step}, steps ≠ [] →
    Parts 0 ((steps.map Step.text).map String.toList)
  | [s], _ => .last s.undivided.1
  | s :: t :: rest, _ => .cons s.undivided.1 s.undivided.2 (parts_texts (List.cons_ne_nil t rest))

/-- An address is divided into the steps that it was written from. -/
theorem split_address {steps : List Step} (h : steps ≠ []) :
    split (address steps) = steps.map Step.text := by
  refine split_join (parts_texts h) fun text htext => ?_
  obtain ⟨s, -, rfl⟩ := List.mem_map.mp htext
  exact s.text_ne_empty

theorem ne_empty_of_split {path : String} (h : split path ≠ []) : path ≠ "" := by
  rintro rfl
  exact h rfl

/-! ## What a step leads to -/

/-- The step to a prototype is read back as its name. -/
theorem prototypeName?_prototypePath (name : String) :
    prototypeName? (Source.prototypePath name) = some name := by
  unfold prototypeName?
  rw [toList_prototypePath]
  simp

/-- A key without parentheses names no prototype. -/
theorem prototypeName?_of_free {key : String} (h : '(' ∉ key.toList) : prototypeName? key = none := by
  unfold prototypeName?
  refine if_neg fun hopening => h ?_
  exact (List.isPrefixOf_iff_prefix.mp hopening).subset (by decide)

/-- A step leads where its keys lead. -/
theorem step?_text (b : Branch) (s : Step) : step? b s.text = (Node.branch b).descend? s.keys := by
  unfold step?
  cases s with
  | key k plain =>
    rw [Step.text, prototypeName?_of_free plain.2.2.1]
    exact (Option.bind_fun_some _).symm
  | prototype name balanced =>
    rw [Step.text, prototypeName?_prototypePath]
    change (b.get? Key.prototypes).bind _ = (b.get? Key.prototypes).bind _
    refine Option.bind_congr fun table _ => ?_
    cases table with
    | scalar s => rfl
    | wrapper w => rfl
    | branch table => exact (Option.bind_fun_some _).symm

/-- Every step goes down by at least one key. -/
theorem Step.exists_keys (s : Step) : ∃ key keys, s.keys = key :: keys := by
  cases s with
  | key k plain => exact ⟨k, [], rfl⟩
  | prototype name balanced => exact ⟨Key.prototypes, [name], rfl⟩

/-- What is shown of a node at the end of a path: a branch itself, and anything else under its step. -/
def shownAt (step : String) : Node → Branch
  | .branch b => b
  | n => [(step, n)]

/-- Steps lead where their keys lead. -/
theorem follow?_text : ∀ (steps : List Step) (h : steps ≠ []) (b : Branch),
    follow? b (steps.map Step.text) = ((Node.branch b).descend? (steps.flatMap Step.keys)).map
      (shownAt (steps.getLast h).text)
  | [s], _, b => by
    rw [List.map_singleton, follow?, step?_text, List.flatMap_singleton, List.getLast_singleton]
    cases (Node.branch b).descend? s.keys with
    | none => rfl
    | some n => cases n <;> rfl
  | s :: t :: rest, h, b => by
    have ih := follow?_text (t :: rest) (List.cons_ne_nil t rest)
    rw [List.map_cons, List.map_cons, follow?, ← List.map_cons, step?_text, List.flatMap_cons,
      Node.descend?_append, List.getLast_cons (List.cons_ne_nil t rest)]
    cases (Node.branch b).descend? s.keys with
    | none => rfl
    | some n =>
      cases hn : n.branch? with
      | some c =>
        cases n with
        | branch c => exact ih c
        | scalar s => cases hn
        | wrapper w => cases hn
      | none =>
        -- there is a further step, and nothing below what is no branch
        obtain ⟨key, keys, hkeys⟩ := t.exists_keys
        rw [Option.bind_some, List.flatMap_cons, hkeys, List.cons_append,
          Node.descend?_of_not_branch hn]
        cases n with
        | branch c => cases hn
        | scalar s => rfl
        | wrapper w => rfl
    · exact List.cons_ne_nil _ _

end FusionPath

/-! ## The part of a tree at an address -/

namespace ObjectTree

open FusionPath

/-- What is found at a path depends on its steps only, however it is written. -/
theorem at?_of_split (t : ObjectTree) {path : String} {steps : List Step} (h : steps ≠ [])
    (hsplit : split path = steps.map Step.text) :
    t.at? (some path) =
      match (Node.branch t.root).descend? (steps.flatMap Step.keys) with
      | some n => .ok (shownAt (steps.getLast h).text n)
      | none => .error (.pathNotFound path) := by
  have hne : path ≠ "" := ne_empty_of_split fun hnil => h (List.map_eq_nil_iff.mp (hsplit ▸ hnil))
  have hfilter : (some path).filter (· != "") = some path := by simp [Option.filter, hne]
  unfold ObjectTree.at?
  rw [hfilter]
  dsimp only
  rw [hsplit, follow?_text steps h]
  cases (Node.branch t.root).descend? (steps.flatMap Step.keys) with
  | none => rfl
  | some n => rfl

/-- **Every part of a tree has an address.** For steps of both kinds, with dots and parentheses in the
names of prototypes, the path that is written from them leads exactly along their keys: to the branch at
the end, or to a branch of the last step alone if a wrapper or a scalar is there. Otherwise the path is
reported as missing in full, and this is so exactly if a key is missing in the branch where it is looked
for, or is looked for in a wrapper or a scalar. A session that has loaded the tree answers so. Moreover
any text whatever is divided into steps that, joined, are divided into the same steps again. -/
theorem at?_address (t : ObjectTree) (steps : List Step) (h : steps ≠ []) :
    let path := address steps
    let found := (Node.branch t.root).descend? (steps.flatMap Step.keys)
    (t.at? (some path) =
      match found with
      | some (.branch b) => .ok b
      | some n => .ok [((steps.getLast h).text, n)]
      | none => .error (.pathNotFound path)) ∧
    (found = none ↔ ∃ front key back n, steps.flatMap Step.keys = front ++ key :: back ∧
      (Node.branch t.root).descend? front = some n ∧ ∀ b : Branch, n = .branch b → b.get? key = none) ∧
    (∀ (disk : Disk) (s : Session), (s.tree disk).1 = .ok t →
      (s.ask (Session.part (some path)) disk).1 = t.at? (some path)) ∧
    ∀ p, split (join (split p)) = split p := by
  refine ⟨?_, Node.descend?_eq_none_iff, fun disk s hs => ?_, split_join_split⟩
  · rw [at?_of_split t h (split_address h)]
    cases (Node.branch t.root).descend? (steps.flatMap Step.keys) with
    | none => rfl
    | some n => cases n <;> rfl
  · rw [Session.ask_eq, hs]
    rfl

/-- A tree with a prototype whose name holds dots and nested parentheses, and a page in it. -/
def versionedTree : ObjectTree :=
  ⟨[(Key.prototypes, .branch [("Vendor.Site:Page(v2.(beta).0)", .branch
    [("body", .branch [("title", .scalar (.text "Hello"))])])])]⟩

/-- The steps to the title of that page. -/
def titleSteps : List Step :=
  [.prototype "Vendor.Site:Page(v2.(beta).0)" (by decide), .key "body" (by decide),
    .key "title" (by decide)]

/-- The title is found at its address, under the last step. -/
theorem at?_address_titleSteps :
    titleSteps ≠ [] ∧
    address titleSteps = "prototype(Vendor.Site:Page(v2.(beta).0)).body.title" ∧
    versionedTree.at? (some (address titleSteps)) = .ok [("title", .scalar (.text "Hello"))] := by
  have hne : titleSteps ≠ [] := List.cons_ne_nil _ _
  exact ⟨hne, rfl, (at?_address versionedTree titleSteps hne).1⟩

end ObjectTree

end FusionInspect
