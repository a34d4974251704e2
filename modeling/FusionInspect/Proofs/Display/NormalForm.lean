import FusionInspect.Proofs.Display.Level
import FusionInspect.Proofs.Tree.WellFormed

/-!
# The form of a display

Flattening leaves no wrapper and no branch of meta properties, and below the root no empty branch and
none that names its type (`contribution_contributes`).

Statements are about definitions without wrappers. A wrapper under the key for a type would become a
text there, and so give the branch around it a type.
-/

namespace FusionInspect

/-! ## Levels of a tree -/

/-- There is no wrapper at or below the node, and every branch there satisfies a property. -/
inductive Node.EachLevel (p : Branch → Prop) : Node → Prop
  | scalar (s : Scalar) : EachLevel p (.scalar s)
  | branch {b : Branch} : p b → (∀ e ∈ b, EachLevel p e.2) → EachLevel p (.branch b)

/-- Every node of the branch satisfies a property at each level. -/
def Branch.EachBelow (p : Branch → Prop) (b : Branch) : Prop :=
  ∀ e ∈ b, e.2.EachLevel p

/-- There is no wrapper in the branch, at any depth. -/
def Branch.WrapperFree (b : Branch) : Prop :=
  b.EachBelow fun _ => True

@[simp]
theorem Node.eachLevel_scalar (p : Branch → Prop) (s : Scalar) : (Node.scalar s).EachLevel p :=
  .scalar s

@[simp]
theorem Node.eachLevel_branch {p : Branch → Prop} {b : Branch} :
    (Node.branch b).EachLevel p ↔ p b ∧ b.EachBelow p :=
  ⟨fun | .branch hp hbelow => ⟨hp, hbelow⟩, fun h => .branch h.1 h.2⟩

@[simp]
theorem Branch.eachBelow_nil (p : Branch → Prop) : Branch.EachBelow p [] :=
  fun _ h => (List.not_mem_nil h).elim

@[simp]
theorem Branch.eachBelow_cons {p : Branch → Prop} {e : String × Node} {b : Branch} :
    Branch.EachBelow p (e :: b) ↔ e.2.EachLevel p ∧ b.EachBelow p :=
  List.forall_mem_cons

/-- What follows from two properties of a level holds at each level where both do. -/
theorem Node.EachLevel.imp {p q r : Branch → Prop} (h : ∀ b, p b → q b → r b) {n : Node}
    (hp : n.EachLevel p) (hq : n.EachLevel q) : n.EachLevel r := by
  induction hp with
  | scalar s => exact .scalar s
  | branch hpb _ ih =>
    cases hq with
    | branch hqb hq => exact .branch (h _ hpb hqb) fun e he => ih e he (hq e he)

/-- The type of a branch is the text in its slot for types, unless that is empty. -/
theorem Branch.objectType?_eq_some {b : Branch} {t : String} :
    b.objectType? = some t ↔ b.get? Key.objectType = some (.scalar (.text t)) ∧ t ≠ "" := by
  unfold Branch.objectType?
  split
  · next s hget =>
    rw [hget]
    by_cases hs : s = ""
    · subst hs
      simp
    · simp only [beq_iff_eq, hs, if_false, Option.some.injEq, Node.scalar.injEq, Scalar.text.injEq]
      constructor
      · rintro rfl
        exact ⟨rfl, hs⟩
      · exact fun h => h.1
  · next hother => exact iff_of_false (by simp) fun h => hother t h.1

namespace Display

/-! ## Keys of a display -/

/-- The key of a meta property is no key that begins otherwise. -/
theorem meta_ne {key s : String} (h : s.toList.head? ≠ some '@') : "@" ++ key ≠ s := by
  rintro rfl
  exact h (by simp)

/-- A label with a bracket, marked or not, is no key without one. -/
theorem marked_ne {known : String → Bool} {label t s : String} (hlabel : '[' ∈ label.toList)
    (hs : '[' ∉ s.toList) : marked known label t ≠ s := by
  rintro rfl
  rw [marked] at hs
  split at hs
  · exact hs hlabel
  · exact hs (by simp [hlabel])

theorem mem_typed_label (key t : String) : '[' ∈ (key ++ " [" ++ t ++ "]").toList := by
  simp

/-! ## What contributions are -/

/-- Distinct keys, and no branch of meta properties among them. -/
structure Plain (b : Branch) : Prop where
  nodup : (b.map Prod.fst).Nodup
  unnested : ∀ e ∈ b, e.1 = Key.metaProperties → e.2.isMapping = false

/-- A branch in a display, below its root. -/
structure Shown (b : Branch) : Prop extends Plain b where
  untyped : b.objectType? = none
  nonempty : b ≠ []
  placed : ∃ es, (es.map Prod.fst).Nodup ∧ b = laid es

/-- What an entry can contribute: at the key of meta properties no mapping, and at the key of a type
only its own node or a mapping. -/
structure Contributes (key : String) (n : Node) (e : String × Node) : Prop where
  shown : e.2.EachLevel Shown
  unnested : e.1 = Key.metaProperties → e.2.isMapping = false
  untyped : e.1 = Key.objectType → key = Key.objectType ∧ (e.2 = n ∨ e.2.isMapping = true)

/-- A branch contributes what its entries do, one after the other, slots left out if it is typed. -/
theorem contributions_eq_flatMap (known : String → Bool) (typed : Bool) : ∀ b : Branch,
    contributions known typed b =
      (b.filter fun e => !(typed && isSlotKey e.1)).flatMap fun e => contribution known e.1 e.2
  | [] => by rw [contributions]; rfl
  | (key, node) :: rest => by
    rw [contributions, contributions_eq_flatMap known typed rest, List.filter_cons]
    cases typed && isSlotKey key <;> rfl

/-- Each contribution is that of an entry that is not left out. -/
theorem mem_contributions {known : String → Bool} {typed : Bool} {b : Branch} {e : String × Node} :
    e ∈ contributions known typed b ↔
      ∃ d ∈ b, (typed && isSlotKey d.1) = false ∧ e ∈ contribution known d.1 d.2 := by
  rw [contributions_eq_flatMap, List.mem_flatMap]
  simp only [List.mem_filter, Bool.not_eq_true', and_assoc]

/-- What is shown at a key is a branch with entries. -/
theorem mem_shown {key : String} {b : Branch} {e : String × Node} (h : e ∈ shown key b) :
    e = (key, .branch b) ∧ b ≠ [] := by
  rw [shown] at h
  split at h
  · exact (List.not_mem_nil h).elim
  · next hb => exact ⟨List.mem_singleton.mp h, fun hnil => hb (by rw [hnil]; rfl)⟩

section

variable {known : String → Bool} {typed : Bool} {b : Branch}
  (h : ∀ d ∈ b, ∀ e ∈ contribution known d.1 d.2, Contributes d.1 d.2 e)

include h

/-- The level of contributions has distinct keys and no branch of meta properties. -/
theorem plain_level : Plain (level (contributions known typed b)) where
  nodup := nodup_keys_level _
  unnested e he := by
    obtain ⟨d, hd, _, hcontribution⟩ := mem_contributions.mp (mem_of_mem_level he)
    exact (h d hd e hcontribution).unnested

/-- All that is below such a level is in the form of displays. -/
theorem below_level : (level (contributions known typed b)).EachBelow Shown := by
  intro e he
  obtain ⟨d, hd, _, hcontribution⟩ := mem_contributions.mp (mem_of_mem_level he)
  exact (h d hd e hcontribution).shown

/-- A level names no type, if the slots of a branch that names one are left out. -/
theorem untyped_level (hnd : (b.map Prod.fst).Nodup) (htyped : typed = false → b.objectType? = none) :
    (level (contributions known typed b)).objectType? = none := by
  -- a text at the key of a type would be the node of the branch's own entry there
  refine Option.eq_none_iff_forall_ne_some.mpr fun t ht => ?_
  obtain ⟨hget, hne⟩ := Branch.objectType?_eq_some.mp ht
  have hmem : (Key.objectType, Node.scalar (.text t)) ∈ level (contributions known typed b) :=
    Entries.mem_of_find? hget
  obtain ⟨d, hd, hslot, hcontribution⟩ := mem_contributions.mp (mem_of_mem_level hmem)
  obtain ⟨hkey, hnode⟩ := (h d hd _ hcontribution).untyped rfl
  cases typed with
  | true =>
    rw [hkey] at hslot
    exact absurd hslot (by decide)
  | false =>
    have hd' : (Key.objectType, Node.scalar (.text t)) = d :=
      Prod.ext hkey.symm (hnode.resolve_right (by simp [Node.isMapping]))
    have hfound : b.get? Key.objectType = some (.scalar (.text t)) :=
      (Entries.find?_eq_some_iff_mem hnd).mpr (hd' ▸ hd)
    have htype := Branch.objectType?_eq_some.mpr ⟨hfound, hne⟩
    rw [htyped rfl] at htype
    cases htype

/-- The level itself is in that form if it has entries and no type: where the branch has one, its slot was
left out. -/
theorem shown_level (hnd : (b.map Prod.fst).Nodup) (htyped : typed = false → b.objectType? = none)
    (hne : level (contributions known typed b) ≠ []) :
    Node.EachLevel Shown (.branch (level (contributions known typed b))) :=
  .branch ⟨plain_level h, untyped_level h hnd htyped, hne, _, Entries.nodup_collect _, level_eq _⟩
    (below_level h)

end

/-- Every contribution of a node without wrappers is one of a display. -/
theorem contribution_contributes (known : String → Bool) {n : Node}
    (hfree : n.EachLevel fun _ => True) (key : String) (hwf : n.WellFormed) :
    ∀ e ∈ contribution known key n, Contributes key n e := by
  induction hfree generalizing key with
  | scalar s =>
    intro e he
    rw [contribution, List.mem_singleton] at he
    subst he
    exact ⟨.scalar s, fun _ => rfl, fun h => ⟨h, .inl rfl⟩⟩
  | @branch b _ _ ih =>
    rw [Node.WellFormed, Branch.nodesWellFormed_iff] at hwf
    have hbelow : ∀ d ∈ b, ∀ e ∈ contribution known d.1 d.2, Contributes d.1 d.2 e :=
      fun d hd => ih d hd d.1 (hwf.2 d hd)
    intro e he
    rw [contribution] at he
    split at he
    · obtain ⟨d, hd, rfl⟩ := List.mem_map.mp he
      refine ⟨below_level hbelow d hd, fun h => ?_, fun h => ?_⟩
      · exact absurd h (meta_ne (by decide))
      · exact absurd h (meta_ne (by decide))
    · next hkey =>
      split at he
      · next t ht =>
        obtain ⟨rfl, hne⟩ := mem_shown he
        refine ⟨shown_level hbelow hwf.1 (fun h => by cases h) hne, fun h => ?_, fun h => ?_⟩
        · exact absurd h (marked_ne (mem_typed_label key t) (by decide))
        · exact absurd h (marked_ne (mem_typed_label key t) (by decide))
      · next hnone =>
        obtain ⟨rfl, hne⟩ := mem_shown he
        refine ⟨shown_level hbelow hwf.1 (fun _ => hnone) hne, fun h => ?_, fun h => ⟨h, .inr rfl⟩⟩
        exact absurd (beq_iff_eq.mpr h) hkey

end Display

end FusionInspect
