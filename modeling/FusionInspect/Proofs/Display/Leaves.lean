import FusionInspect.Proofs.Display.Idempotence
import Mathlib.Data.List.Pairwise

/-!
# What a display keeps

A LEAF of a branch is a scalar that is reached through branches only. It is shown at a path of its own:
on the way there a typed branch has its type in the key, and a meta property stands one level up, with an
`@` in front (`shownPath`).

A later contribution at a key replaces an earlier one, with all that is below it. So every leaf is kept
where no two contributions of a level are shown at one key (`Unambiguous.kept`), and then no two leaves
are shown at one path (`Unambiguous.apart`). Without wrappers nothing less will do: each contribution
shows some leaf, and all that is shown comes from leaves.
-/

namespace FusionInspect.Display

/-! ## Leaves -/

/-- Whether a branch is shown with its type in the key, and so without its slots. -/
def showsType (key : String) (b : Branch) : Bool :=
  key != Key.metaProperties && b.objectType?.isSome

/-- The leaf at a path, unless it is a slot that is left out. -/
def leafAt? (typed : Bool) (b : Branch) : List String → Option Scalar
  | [] => none
  | key :: path =>
    if typed && isSlotKey key then none
    else match b.get? key with
      | some (.scalar s) => if path.isEmpty then some s else none
      | some (.branch c) => leafAt? (showsType key c) c path
      | _ => none

/-- The key that a branch is shown at, unless it holds meta properties. A type stands in brackets behind the
key, and behind one that is not known stands a mark. -/
def label (known : String → Bool) (key : String) (b : Branch) : String :=
  match b.objectType? with
  | some t => if known t then key ++ " [" ++ t ++ "]" else key ++ " [" ++ t ++ "] (?)"
  | none => key

/-- A path of what a branch shows, seen from around the branch. -/
def outward (known : String → Bool) (key : String) (b : Branch) (path : List String) : List String :=
  if key == Key.metaProperties then path.modifyHead ("@" ++ ·) else label known key b :: path

/-- The path at which a branch shows the leaf that it has at a path. -/
def shownPath (known : String → Bool) (b : Branch) : List String → List String
  | [] => []
  | key :: path =>
    match b.get? key with
    | some (.branch c) => outward known key c (shownPath known c path)
    | _ => key :: path

/-- The leaf that a node is, or that it has at a path. -/
inductive LeafBelow (key : String) : Node → List String → Scalar → Prop
  | scalar (s : Scalar) : LeafBelow key (.scalar s) [] s
  | branch {c : Branch} {path : List String} {s : Scalar} :
      leafAt? (showsType key c) c path = some s → LeafBelow key (.branch c) path s

/-- The path at which the leaf of a node is shown around it. -/
def pathBelow (known : String → Bool) (key : String) : Node → List String → List String
  | .branch c, path => outward known key c (shownPath known c path)
  | _, path => key :: path

section

variable {known : String → Bool} {typed : Bool} {key : String} {b c : Branch} {n : Node}
  {path path' : List String} {s s' : Scalar} {d e : String × Node}

/-- A leaf below a key is the node at the key or a leaf of it, unless the key is a slot that is left out.
-/
theorem leafAt?_cons : leafAt? typed b (key :: path) = some s ↔
    (typed && isSlotKey key) = false ∧ ∃ n, b.get? key = some n ∧ LeafBelow key n path s := by
  rw [leafAt?]
  cases typed && isSlotKey key with
  | true => simp
  | false =>
    simp only [Bool.false_eq_true, if_false, true_and]
    cases b.get? key with
    | none => simp
    | some n =>
      simp only [Option.some.injEq, exists_eq_left']
      cases n with
      | scalar t =>
        constructor
        · intro h
          cases path with
          | nil => exact Option.some.inj h ▸ .scalar t
          | cons _ _ => cases h
        · rintro ⟨⟩
          rfl
      | wrapper w => exact iff_of_false (fun h => by cases h) fun h => by cases h
      | branch c => exact ⟨.branch, fun | .branch h => h⟩

/-- The path to a leaf is found from the node at its first key. -/
theorem shownPath_cons (h : b.get? key = some n) :
    shownPath known b (key :: path) = pathBelow known key n path := by
  rw [shownPath, h]
  cases n <;> rfl

/-! ## What a branch contributes -/

/-- The label of a typed branch is the one that flattening makes. -/
theorem label_of_type {t : String} (h : b.objectType? = some t) :
    label known key b = marked known (key ++ " [" ++ t ++ "]") t := by
  have hmark : key ++ " [" ++ t ++ "]" ++ unknownMark = key ++ " [" ++ t ++ "] (?)" :=
    String.append_assoc
  rw [label, h, marked, hmark]

/-- What a branch contributes: its display at its label, or each entry of it with an `@` in front. -/
theorem contribution_branch (known : String → Bool) (key : String) (c : Branch) :
    contribution known key (.branch c) =
      if key == Key.metaProperties then
        (level (contributions known (showsType key c) c)).map fun e => ("@" ++ e.1, e.2)
      else shown (label known key c) (level (contributions known (showsType key c) c)) := by
  rw [contribution]
  split
  · next hkey => rw [showsType, bne, hkey]; rfl
  · next hkey =>
    rw [showsType, bne, Bool.eq_false_iff.mpr hkey]
    cases htype : c.objectType? with
    | none => rw [label, htype]; rfl
    | some t => rw [label_of_type htype]; rfl

theorem shown_of_ne_nil {key : String} {b : Branch} (h : b ≠ []) : shown key b = [(key, .branch b)] := by
  rw [shown, if_neg (by simpa using h)]

/-- A scalar that a branch shows is one that its entry shows in what it contributes. -/
theorem exists_contribution_of_level {q : List String}
    (h : (level (contributions known (showsType key c) c)).nodeAt? q = some (.scalar s)) :
    ∃ d ∈ contribution known key (.branch c), ∃ q',
      outward known key c q = d.1 :: q' ∧ d.2.nodeAt? q' = some (.scalar s) := by
  cases q with
  | nil => cases h
  | cons k q =>
    obtain ⟨m, hm, hq⟩ := Branch.nodeAt?_cons_eq_some.mp h
    have hmem : (k, m) ∈ level (contributions known (showsType key c) c) := Entries.mem_of_find? hm
    rw [contribution_branch, outward]
    split
    · exact ⟨_, List.mem_map_of_mem hmem, q, rfl, hq⟩
    · rw [shown_of_ne_nil (List.ne_nil_of_mem hmem)]
      exact ⟨_, List.mem_singleton_self _, k :: q, rfl, h⟩

/-- Every scalar that an entry shows in what it contributes is one that its branch shows. -/
theorem exists_level_of_contribution {q : List String} (hd : d ∈ contribution known key (.branch c))
    (h : d.2.nodeAt? q = some (.scalar s)) :
    ∃ q', (level (contributions known (showsType key c) c)).nodeAt? q' = some (.scalar s) ∧
      outward known key c q' = d.1 :: q := by
  rw [contribution_branch] at hd
  split at hd
  · next hkey =>
    obtain ⟨e, he, rfl⟩ := List.mem_map.mp hd
    refine ⟨e.1 :: q, ?_, by rw [outward, if_pos hkey]; rfl⟩
    rw [Branch.nodeAt?_cons, Branch.get?,
      (Entries.find?_eq_some_iff_mem (nodup_keys_level _)).mpr he]
    exact h
  · next hkey =>
    obtain ⟨rfl, _⟩ := mem_shown hd
    exact ⟨q, h, by rw [outward, if_neg hkey]⟩

/-- Paths of what a branch shows are told apart from around the branch. -/
theorem outward_injective {q q' : List String} (h : outward known key c q = outward known key c q') :
    q = q' := by
  rw [outward, outward] at h
  split at h
  · cases q with
    | nil => cases q' with
      | nil => rfl
      | cons k' q' => cases h
    | cons k q => cases q' with
      | nil => cases h
      | cons k' q' =>
        obtain ⟨hk, hq⟩ := List.cons.inj h
        rw [hq, String.append_right_inj "@" |>.mp hk]
  · exact (List.cons.inj h).2

/-! ## Levels with distinct keys -/

/-- No two contributions are shown at one key, at any level. -/
inductive Unambiguous (known : String → Bool) : Bool → Branch → Prop
  | intro {typed : Bool} {b : Branch} :
      ((contributions known typed b).map Prod.fst).Nodup →
      (∀ key c, (key, Node.branch c) ∈ b → (typed && isSlotKey key) = false →
        Unambiguous known (showsType key c) c) →
      Unambiguous known typed b

/-- Every leaf is kept at its path, and no two leaves are shown at one path. -/
structure Faithful (known : String → Bool) (typed : Bool) (b : Branch) : Prop where
  kept : ∀ path s, leafAt? typed b path = some s →
    (level (contributions known typed b)).nodeAt? (shownPath known b path) = some (.scalar s)
  apart : ∀ path path' s s', leafAt? typed b path = some s → leafAt? typed b path' = some s' →
    shownPath known b path = shownPath known b path' → path = path'

/-- Where no two contributions are shown at one key, each of them is found at its key. -/
theorem get?_level (hnd : ((contributions known typed b).map Prod.fst).Nodup)
    (hd : d ∈ contributions known typed b) :
    (level (contributions known typed b)).get? d.1 = some d.2 := by
  refine (Entries.find?_eq_some_iff_mem (nodup_keys_level _)).mpr ?_
  rw [level_of_nodup hnd, (laid_perm _).mem_iff]
  exact hd

/-- Contributions that are shown at one key come from one entry. -/
theorem eq_of_shown_eq (hnd : ((contributions known typed b).map Prod.fst).Nodup) {d' e' : String × Node}
    (hd : d ∈ b) (hslot : (typed && isSlotKey d.1) = false) (he : e ∈ contribution known d.1 d.2)
    (hd' : d' ∈ b) (hslot' : (typed && isSlotKey d'.1) = false)
    (he' : e' ∈ contribution known d'.1 d'.2) (hkey : e.1 = e'.1) : d = d' := by
  rw [contributions_eq_flatMap, List.map_flatMap, List.nodup_flatMap] at hnd
  by_contra hne
  have hkept : ∀ c ∈ b, (typed && isSlotKey c.1) = false →
      c ∈ b.filter fun e => !(typed && isSlotKey e.1) :=
    fun c hc hslot => List.mem_filter.mpr ⟨hc, by rw [hslot]; rfl⟩
  have hsymm : Std.Symm (Function.onFun List.Disjoint fun a : String × Node =>
      (contribution known a.1 a.2).map Prod.fst) := ⟨fun _ _ h _ hl hr => h hr hl⟩
  exact hnd.2.forall (hkept d hd hslot) (hkept d' hd' hslot') hne (List.mem_map_of_mem he)
    (hkey ▸ List.mem_map_of_mem he')

/-- A leaf that is kept below its entry is in what the entry contributes. -/
theorem LeafBelow.exists_contribution (h : LeafBelow key n path s) (known : String → Bool)
    (hkept : ∀ c, n = .branch c → leafAt? (showsType key c) c path = some s →
      (level (contributions known (showsType key c) c)).nodeAt? (shownPath known c path) =
        some (.scalar s)) :
    ∃ d ∈ contribution known key n, ∃ q,
      pathBelow known key n path = d.1 :: q ∧ d.2.nodeAt? q = some (.scalar s) := by
  cases h with
  | scalar =>
    rw [contribution]
    exact ⟨_, List.mem_singleton_self _, [], rfl, rfl⟩
  | @branch c _ _ hleaf => exact exists_contribution_of_level (hkept c rfl hleaf)

/-- At the first level no key comes twice. -/
theorem Unambiguous.nodup (h : Unambiguous known typed b) :
    ((contributions known typed b).map Prod.fst).Nodup := by
  cases h with
  | intro hnd _ => exact hnd

/-- The levels below are unambiguous too. -/
theorem Unambiguous.child (h : Unambiguous known typed b) (hget : b.get? key = some (.branch c))
    (hslot : (typed && isSlotKey key) = false) : Unambiguous known (showsType key c) c := by
  cases h with
  | intro _ hbelow => exact hbelow key c (Entries.mem_of_find? hget) hslot

/-- Every leaf is kept with its value at its path, by induction on the path. -/
theorem Unambiguous.kept (h : Unambiguous known typed b) (hleaf : leafAt? typed b path = some s) :
    (level (contributions known typed b)).nodeAt? (shownPath known b path) = some (.scalar s) := by
  induction path generalizing typed b with
  | nil => cases hleaf
  | cons key path ih =>
    obtain ⟨hslot, n, hget, hbelow⟩ := leafAt?_cons.mp hleaf
    obtain ⟨d, hd, q, hpath, hq⟩ := hbelow.exists_contribution known fun c hc hleaf =>
      ih (h.child (hget.trans (congrArg some hc)) hslot) hleaf
    have hmem : d ∈ contributions known typed b :=
      mem_contributions.mpr ⟨(key, n), Entries.mem_of_find? hget, hslot, hd⟩
    rw [shownPath_cons hget, hpath, Branch.nodeAt?_cons, get?_level h.nodup hmem]
    exact hq

/-- Leaves that are shown at one path are one leaf. -/
theorem Unambiguous.apart (h : Unambiguous known typed b) (hleaf : leafAt? typed b path = some s)
    (hleaf' : leafAt? typed b path' = some s')
    (heq : shownPath known b path = shownPath known b path') : path = path' := by
  induction path generalizing typed b path' with
  | nil => cases hleaf
  | cons key path ih =>
    cases path' with
    | nil => cases hleaf'
    | cons key' path' =>
      obtain ⟨hslot, n, hget, hbelow⟩ := leafAt?_cons.mp hleaf
      obtain ⟨hslot', n', hget', hbelow'⟩ := leafAt?_cons.mp hleaf'
      obtain ⟨d, hd, q, hpath, _⟩ := hbelow.exists_contribution known
        fun c hc hleaf => (h.child (hget.trans (congrArg some hc)) hslot).kept hleaf
      obtain ⟨d', hd', q', hpath', _⟩ := hbelow'.exists_contribution known
        fun c hc hleaf => (h.child (hget'.trans (congrArg some hc)) hslot').kept hleaf
      rw [shownPath_cons hget, shownPath_cons hget'] at heq
      -- both leaves are shown at the same key, so they come from the same entry
      have hkey : d.1 = d'.1 := by
        rw [hpath, hpath'] at heq
        exact (List.cons.inj heq).1
      have hentry : (key, n) = (key', n') := eq_of_shown_eq h.nodup (Entries.mem_of_find? hget) hslot hd
        (Entries.mem_of_find? hget') hslot' hd' hkey
      obtain ⟨rfl, rfl⟩ := Prod.mk.inj hentry
      cases hbelow with
      | scalar => cases hbelow' with
        | scalar => rfl
      | branch hc => cases hbelow' with
        | branch hc' => rw [ih (h.child hget hslot) hc hc' (outward_injective heq)]

theorem Unambiguous.faithful (h : Unambiguous known typed b) : Faithful known typed b :=
  ⟨fun _ _ => h.kept, fun _ _ _ _ => h.apart⟩

/-! ## Definitions without wrappers -/

/-- What is shown at a key was contributed by some entry. -/
theorem exists_entry_of_get?_level {k : String} {m : Node}
    (h : (level (contributions known typed b)).get? k = some m) :
    ∃ d ∈ b, (typed && isSlotKey d.1) = false ∧ (k, m) ∈ contribution known d.1 d.2 := by
  have hmem : (k, m) ∈ level (contributions known typed b) := Entries.mem_of_find? h
  exact mem_contributions.mp (mem_of_mem_level hmem)

/-- Every scalar of a display comes from a leaf that is shown there. -/
theorem exists_leaf_of_contribution (hfree : n.EachLevel fun _ => True) (hwf : n.WellFormed)
    {q : List String} (hd : d ∈ contribution known key n) (h : d.2.nodeAt? q = some (.scalar s)) :
    ∃ path, LeafBelow key n path s ∧ pathBelow known key n path = d.1 :: q := by
  induction hfree generalizing key d q with
  | scalar t =>
    rw [contribution, List.mem_singleton] at hd
    subst hd
    cases q with
    | nil => cases h; exact ⟨[], .scalar s, rfl⟩
    | cons _ _ => cases h
  | @branch c _ _ ih =>
    obtain ⟨q', hlevel, hout⟩ := exists_level_of_contribution hd h
    cases q' with
    | nil => cases hlevel
    | cons k q' =>
      obtain ⟨m, hm, hq⟩ := Branch.nodeAt?_cons_eq_some.mp hlevel
      obtain ⟨e, he, hslot, hcontribution⟩ := exists_entry_of_get?_level hm
      have hc : c.WellFormed := hwf
      obtain ⟨path, hleaf, hpath⟩ := ih e he (hc.node he) hcontribution hq
      have hget : c.get? e.1 = some e.2 := hc.get?_of_mem he
      refine ⟨e.1 :: path, .branch (leafAt?_cons.mpr ⟨hslot, e.2, hget, hleaf⟩), ?_⟩
      rw [pathBelow, shownPath_cons hget, hpath, hout]

/-- A node of a display has some scalar. -/
theorem exists_scalar_of_shown (h : n.EachLevel Shown) : ∃ q s, n.nodeAt? q = some (.scalar s) := by
  induction h with
  | scalar s => exact ⟨[], s, rfl⟩
  | @branch b hb _ ih =>
    obtain ⟨e, he⟩ := List.exists_mem_of_ne_nil b hb.nonempty
    obtain ⟨q, s, hq⟩ := ih e he
    refine ⟨e.1 :: q, s, ?_⟩
    have hget : b.get? e.1 = some e.2 := (Entries.find?_eq_some_iff_mem hb.nodup).mpr he
    change b.nodeAt? (e.1 :: q) = _
    rw [Branch.nodeAt?_cons, hget]
    exact hq

/-- An entry contributes to each key once at most. -/
theorem nodup_contribution (known : String → Bool) (key : String) (n : Node) :
    ((contribution known key n).map Prod.fst).Nodup := by
  have hshown : ∀ key b, ((shown key b).map Prod.fst).Nodup := fun key b => by
    rw [shown]
    split <;> simp
  cases n with
  | scalar s => rw [contribution]; simp
  | wrapper w =>
    rw [contribution]
    split
    · simp
    · exact hshown _ _
  | branch c =>
    rw [contribution_branch]
    split
    · generalize hlevel : level (contributions known (showsType key c) c) = l
      have hmap : (l.map fun e => ("@" ++ e.1, e.2)).map Prod.fst = (l.map Prod.fst).map ("@" ++ ·) := by
        rw [List.map_map, List.map_map]
        rfl
      rw [hmap, ← hlevel]
      exact (nodup_keys_level _).map fun _ _ h => (String.append_right_inj "@").mp h
    · exact hshown _ _

section

variable (hfree : b.WrapperFree) (hwf : b.WellFormed) (h : Faithful known typed b)

include hfree hwf h

/-- A leaf that is kept is kept in what its own entry contributes. -/
theorem Faithful.exists_contribution (he : e ∈ b) (hslot : (typed && isSlotKey e.1) = false)
    (hleaf : LeafBelow e.1 e.2 path s) {k : String} {q : List String}
    (hpath : pathBelow known e.1 e.2 path = k :: q) :
    ∃ m, (level (contributions known typed b)).get? k = some m ∧
      (k, m) ∈ contribution known e.1 e.2 ∧ m.nodeAt? q = some (.scalar s) := by
  have hleaf' := leafAt?_cons.mpr ⟨hslot, e.2, hwf.get?_of_mem he, hleaf⟩
  have hshown : shownPath known b (e.1 :: path) = k :: q :=
    (shownPath_cons (hwf.get?_of_mem he)).trans hpath
  have hkept := h.kept _ s hleaf'
  rw [hshown] at hkept
  obtain ⟨m, hm, hq⟩ := Branch.nodeAt?_cons_eq_some.mp hkept
  obtain ⟨d, hd, hdslot, hcontribution⟩ := exists_entry_of_get?_level hm
  obtain ⟨path', hdleaf, hdpath⟩ :=
    exists_leaf_of_contribution (hfree d hd) (hwf.node hd) hcontribution hq
  -- whatever is shown there comes from a leaf that is shown at the same path, so from the same one
  have hsame : e.1 :: path = d.1 :: path' :=
    h.apart _ _ s s hleaf' (leafAt?_cons.mpr ⟨hdslot, d.2, hwf.get?_of_mem hd, hdleaf⟩)
      (hshown.trans ((shownPath_cons (hwf.get?_of_mem hd)).trans hdpath).symm)
  have hnode : some e.2 = some d.2 := by
    rw [← hwf.get?_of_mem he, ← hwf.get?_of_mem hd, (List.cons.inj hsame).1]
  obtain rfl : e = d := Prod.ext (List.cons.inj hsame).1 (Option.some.inj hnode)
  exact ⟨m, hm, hcontribution, hq⟩

/-- If all leaves are kept apart, contributions that are shown at one key come from one entry: either
would show a leaf there, and only one can. -/
theorem Faithful.eq_of_shown_eq {d' e' : String × Node} (hd : d ∈ b)
    (hslot : (typed && isSlotKey d.1) = false) (he : e ∈ contribution known d.1 d.2) (hd' : d' ∈ b)
    (hslot' : (typed && isSlotKey d'.1) = false) (he' : e' ∈ contribution known d'.1 d'.2)
    (hkey : e.1 = e'.1) : d.1 = d'.1 := by
  have hwinner : ∀ d ∈ b, (typed && isSlotKey d.1) = false → ∀ e ∈ contribution known d.1 d.2,
      ∃ m, (level (contributions known typed b)).get? e.1 = some m ∧
        (e.1, m) ∈ contribution known d.1 d.2 ∧ ∃ q s, m.nodeAt? q = some (.scalar s) := by
    intro d hd hslot e he
    obtain ⟨q, s, hq⟩ := exists_scalar_of_shown
      (contribution_contributes known (hfree d hd) d.1 (hwf.node hd) e he).shown
    obtain ⟨path, hleaf, hpath⟩ := exists_leaf_of_contribution (hfree d hd) (hwf.node hd) he hq
    obtain ⟨m, hm, hmem, hq⟩ := h.exists_contribution hfree hwf hd hslot hleaf hpath
    exact ⟨m, hm, hmem, q, s, hq⟩
  obtain ⟨m, hm, hmem, q, s, hq⟩ := hwinner d hd hslot e he
  obtain ⟨m', hm', hmem', _⟩ := hwinner d' hd' hslot' e' he'
  rw [← hkey] at hm' hmem'
  obtain rfl : m = m' := Option.some.inj (hm.symm.trans hm')
  -- the one node at the key shows a leaf of either entry, at the same path
  obtain ⟨path, hleaf, hpath⟩ := exists_leaf_of_contribution (hfree d hd) (hwf.node hd) hmem hq
  obtain ⟨path', hleaf', hpath'⟩ := exists_leaf_of_contribution (hfree d' hd') (hwf.node hd') hmem' hq
  have hsame : d.1 :: path = d'.1 :: path' :=
    h.apart _ _ s s (leafAt?_cons.mpr ⟨hslot, d.2, hwf.get?_of_mem hd, hleaf⟩)
      (leafAt?_cons.mpr ⟨hslot', d'.2, hwf.get?_of_mem hd', hleaf'⟩)
      (by rw [shownPath_cons (hwf.get?_of_mem hd), shownPath_cons (hwf.get?_of_mem hd'), hpath, hpath'])
  exact (List.cons.inj hsame).1

/-- So no two contributions are shown at one key. -/
theorem Faithful.nodup : ((contributions known typed b).map Prod.fst).Nodup := by
  rw [contributions_eq_flatMap, List.map_flatMap, List.nodup_flatMap]
  have hkeys : (b.filter fun e => !(typed && isSlotKey e.1)).Pairwise fun d e => d.1 ≠ e.1 :=
    (List.pairwise_map.mp hwf.1).sublist List.filter_sublist
  refine ⟨fun e _ => nodup_contribution known e.1 e.2, hkeys.imp_of_mem fun {d d'} hd hd' hne => ?_⟩
  rw [List.mem_filter, Bool.not_eq_true'] at hd hd'
  intro k hk hk'
  obtain ⟨e, he, rfl⟩ := List.mem_map.mp hk
  obtain ⟨e', he', hkey⟩ := List.mem_map.mp hk'
  exact hne (h.eq_of_shown_eq hfree hwf hd.1 hd.2 he hd'.1 hd'.2 he' hkey.symm)

/-- If all leaves of a branch are kept apart, so are those of each branch in it. -/
theorem Faithful.child (hc : (key, Node.branch c) ∈ b) (hslot : (typed && isSlotKey key) = false) :
    Faithful known (showsType key c) c := by
  have hget : b.get? key = some (.branch c) := hwf.get?_of_mem hc
  have hleaf : ∀ path s, leafAt? (showsType key c) c path = some s →
      leafAt? typed b (key :: path) = some s :=
    fun path s hpath => leafAt?_cons.mpr ⟨hslot, _, hget, .branch hpath⟩
  refine ⟨fun path s hpath => ?_, fun path path' s s' hpath hpath' heq => ?_⟩
  · have hkept := h.kept _ s (hleaf path s hpath)
    rw [shownPath_cons hget, pathBelow] at hkept
    cases hout : outward known key c (shownPath known c path) with
    | nil => rw [hout] at hkept; cases hkept
    | cons k q =>
      obtain ⟨m, _, hmem, hq⟩ := h.exists_contribution hfree hwf hc hslot (.branch hpath) hout
      obtain ⟨q', hlevel, hout'⟩ := exists_level_of_contribution hmem hq
      rwa [outward_injective (hout'.trans hout.symm)] at hlevel
  · have hsame : key :: path = key :: path' :=
      h.apart _ _ s s' (hleaf path s hpath) (hleaf path' s' hpath')
        (by rw [shownPath_cons hget, shownPath_cons hget, pathBelow, pathBelow, heq])
    exact (List.cons.inj hsame).2

end

/-- Without wrappers, a branch whose leaves are all kept apart has distinct keys at every level. -/
theorem Faithful.unambiguous (hfree : n.EachLevel fun _ => True) (hwf : n.WellFormed)
    (hn : n = .branch b) (h : Faithful known typed b) : Unambiguous known typed b := by
  induction hfree generalizing typed b with
  | scalar s => cases hn
  | @branch b _ hbelow ih =>
    cases hn
    have hwf' : b.WellFormed := hwf
    refine .intro (h.nodup hbelow hwf') fun key c hc hslot => ?_
    exact ih (key, .branch c) hc (hwf'.node hc) rfl (h.child hbelow hwf' hc hslot)

end

/-! ## Definitions -/

theorem isBookkeeping_eq_false {key : String} :
    isBookkeeping key = false ↔ key ≠ Key.prototypeObjectName ∧ key ≠ Key.stopInheritanceChain := by
  rw [isBookkeeping, Bool.or_eq_false_iff, beq_eq_false_iff_ne, beq_eq_false_iff_ne]

/-- Only the bookkeeping itself is shown at a key of the bookkeeping. -/
theorem isBookkeeping_of_contribution {known : String → Bool} {key : String} {n : Node}
    {d : String × Node} (hkey : isBookkeeping key = false) (hd : d ∈ contribution known key n) :
    isBookkeeping d.1 = false := by
  cases n with
  | scalar s =>
    rw [contribution, List.mem_singleton] at hd
    rwa [hd]
  | wrapper w =>
    rw [contribution] at hd
    split at hd
    · rwa [List.mem_singleton.mp hd]
    · rwa [(mem_shown hd).1]
  | branch c =>
    rw [contribution_branch] at hd
    split at hd
    · obtain ⟨e, _, rfl⟩ := List.mem_map.mp hd
      exact isBookkeeping_eq_false.mpr ⟨meta_ne (by decide), meta_ne (by decide)⟩
    · rw [(mem_shown hd).1]
      cases htype : Branch.objectType? c with
      | none => rwa [label, htype]
      | some t =>
        rw [label_of_type htype]
        exact isBookkeeping_eq_false.mpr
          ⟨marked_ne (mem_typed_label key t) (by decide), marked_ne (mem_typed_label key t) (by decide)⟩

/-- Taking the bookkeeping away changes nothing at other keys. -/
theorem get?_flatten {table x : Branch} {key : String} (h : isBookkeeping key = false) :
    (flatten table x).get? key = (flattenBranch table.has x).get? key := by
  obtain ⟨hname, hstop⟩ := isBookkeeping_eq_false.mp h
  rw [flatten, Branch.get?, Branch.erase, Branch.erase, Entries.find?_erase_of_ne _ hstop,
    Entries.find?_erase_of_ne _ hname, Branch.get?]

/-- A leaf outside the bookkeeping is kept also when the bookkeeping is taken away. -/
theorem Unambiguous.kept_flatten {table x : Branch} (h : Unambiguous table.has false x) {key : String}
    {path : List String} {s : Scalar} (hkey : isBookkeeping key = false)
    (hleaf : leafAt? false x (key :: path) = some s) :
    (flatten table x).nodeAt? (shownPath table.has x (key :: path)) = some (.scalar s) := by
  have hkept := h.kept hleaf
  obtain ⟨hslot, n, hget, hbelow⟩ := leafAt?_cons.mp hleaf
  obtain ⟨d, hd, q, hpath, _⟩ := hbelow.exists_contribution table.has
    fun c hc hleaf => (h.child (hget.trans (congrArg some hc)) hslot).kept hleaf
  rw [shownPath_cons hget, hpath, Branch.nodeAt?_cons] at hkept ⊢
  rw [get?_flatten (isBookkeeping_of_contribution hkey hd)]
  exact hkept

/-- **What flattening keeps.** Where no two contributions of a level are shown at one key, every leaf
outside the bookkeeping is kept with its value at its path, and no two leaves are shown at one path. For
a definition without wrappers this is the only way to keep all leaves of a branch apart. -/
theorem flatten_keeps_leaves (table x : Branch) :
    (Unambiguous table.has false x →
      (∀ key path s, isBookkeeping key = false → leafAt? false x (key :: path) = some s →
        (flatten table x).nodeAt? (shownPath table.has x (key :: path)) = some (.scalar s)) ∧
      ∀ path path' s s', leafAt? false x path = some s → leafAt? false x path' = some s' →
        shownPath table.has x path = shownPath table.has x path' → path = path') ∧
    (x.WellFormed → x.WrapperFree →
      (Faithful table.has false x ↔ Unambiguous table.has false x)) := by
  refine ⟨fun h => ⟨fun _ _ _ => h.kept_flatten, fun _ _ _ _ => h.apart⟩, fun hwf hfree => ?_⟩
  refine ⟨fun h => ?_, Unambiguous.faithful⟩
  have hnode : (Node.branch x).EachLevel fun _ => True := .branch trivial hfree
  exact h.unambiguous hnode hwf rfl

theorem unambiguous_linkPage : Unambiguous (Branch.has []) false linkPage := by
  refine .intro (by decide +kernel) fun key c hc _ => ?_
  simp only [linkPage, List.mem_cons, Prod.mk.injEq, reduceCtorEq, Node.branch.injEq, and_false,
    List.not_mem_nil, or_false, false_or] at hc
  rcases hc with ⟨rfl, rfl⟩ | ⟨rfl, rfl⟩ | ⟨rfl, rfl⟩
  · exact .intro (by decide +kernel) (by simp)
  · exact .intro (by decide +kernel) (by simp)
  · exact .intro (by decide +kernel) (by simp)

/-- Both leaves of the page are shown: one under the key with its type, the other as a meta property. -/
theorem flatten_keeps_leaves_linkPage :
    Unambiguous (Branch.has []) false linkPage ∧ linkPage.WellFormed ∧ linkPage.WrapperFree ∧
    Faithful (Branch.has []) false linkPage ∧
    leafAt? false linkPage ["link", "href"] = some (.text "/") ∧
    leafAt? false linkPage [Key.metaProperties, "process"] = some (.text "trim") ∧
    (flatten [] linkPage).nodeAt? ["link [Link] (?)", "href"] = some (.scalar (.text "/")) ∧
    (flatten [] linkPage).nodeAt? ["@process"] = some (.scalar (.text "trim")) := by
  have hwf : linkPage.WellFormed := by decide
  have hfree : linkPage.WrapperFree := by simp [Branch.WrapperFree, linkPage]
  obtain ⟨hkeeps, hiff⟩ := flatten_keeps_leaves [] linkPage
  obtain ⟨hkept, _⟩ := hkeeps unambiguous_linkPage
  exact ⟨unambiguous_linkPage, hwf, hfree, (hiff hwf hfree).mpr unambiguous_linkPage, rfl, rfl,
    hkept "link" ["href"] _ rfl rfl, hkept Key.metaProperties ["process"] _ rfl rfl⟩

/-- A page with a property at the key that one of its meta properties is shown at. -/
def processPage : Branch :=
  [("@process", .branch [("x", .scalar (.number (.integer 1)))]),
    (Key.metaProperties, .branch [("process", .branch [("y", .scalar (.number (.integer 2)))])])]

/-- The meta property replaces the property, and its leaf is gone. -/
theorem flatten_keeps_leaves_processPage_not :
    leafAt? false processPage ["@process", "x"] = some (.number (.integer 1)) ∧
    shownPath (Branch.has []) processPage ["@process", "x"] = ["@process", "x"] ∧
    (flatten [] processPage).nodeAt? ["@process", "x"] = none ∧
    ¬Faithful (Branch.has []) false processPage := by
  have hleaf : leafAt? false processPage ["@process", "x"] = some (.number (.integer 1)) := rfl
  refine ⟨hleaf, rfl, rfl, fun h => ?_⟩
  have hgone : (level (contributions (Branch.has []) false processPage)).nodeAt?
      (shownPath (Branch.has []) processPage ["@process", "x"]) = none := rfl
  rw [h.kept _ _ hleaf] at hgone
  cases hgone

end FusionInspect.Display
