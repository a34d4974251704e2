import FusionInspect.Proofs.Prototype.Layers
import FusionInspect.Proofs.Tree.Canonical

/-!
# Merging again

What a definition was merged from can be merged into it again without effect: a definition extended by
itself stays, laying a result over its own base changes nothing (`Branch.merge_merge_left`), and neither
does extending a result once more (`Branch.merge_merge_right`). All of this holds with the order of keys,
since merging keeps the keys of the base in place and adds new ones at the end.

Merging is not associative: a scalar that stands between two mappings cuts the lower one off. So a base
can be laid under a result only if nothing came between the two.
-/

namespace FusionInspect

open Prototype (Overrides)

/-- The keys of the base come first, then those that are new, in their order. -/
theorem Branch.keys_merge {b e : Branch} (he : e.keys.Nodup) :
    (b.merge e).keys = b.keys ++ e.keys.filter (· ∉ b.keys) := by
  rw [Branch.merge_eq_combine]
  exact Branch.keys_combine _ he

/-- At each key, what is merged there meets what is there already. -/
theorem Branch.get?_merge {b e : Branch} (he : e.keys.Nodup) (key : String) :
    (b.merge e).get? key =
      match e.get? key with
      | none => b.get? key
      | some n => some (Node.merged (b.get? key) n) := by
  rw [Branch.merge_eq_combine]
  exact Branch.get?_combine _ he key

/-! ## A definition extended by itself -/

/-- Without a type nothing is a wrapper. -/
theorem Node.ofBranch_of_untyped {b : Branch} (h : b.has Key.objectType = false) :
    Node.ofBranch b = .branch b := by
  refine Node.ofBranch_of_not_shaped fun hshape => ?_
  obtain ⟨v, hv, _⟩ := hshape.2 .objectType
  change b.get? Key.objectType = _ at hv
  simp [Branch.has, hv] at h

/-- A definition merged with itself stays as it is, if each of its nodes does. -/
theorem Branch.merge_self_of_children {b : Branch} (hb : b.WellFormed)
    (h : ∀ e ∈ b, Node.merged (some e.2) e.2 = e.2) : b.merge b = b := by
  have hkeys : (b.merge b).keys = b.keys := by
    rw [Branch.keys_merge hb.1]
    simp
  refine Entries.eq_of_find?_eq hkeys ((hb.merge hb).1) fun key => ?_
  refine (Branch.get?_merge hb.1 key).trans ?_
  change _ = b.get? key
  cases hk : b.get? key with
  | none => rfl
  | some n => exact congrArg some (h (key, n) (Entries.mem_of_find? hk))

/-- A node merged with itself stays as it is. -/
theorem Node.merged_self {n : Node} (hn : n.WellFormed) : Node.merged (some n) n = n := by
  induction n using Node.inductionOnChildren with
  | step n ih =>
    by_cases hover : Overrides "" n
    · exact Node.merged_stands (.inl hover)
    · cases n with
      | scalar s => exact absurd (.inl ⟨s, rfl⟩) hover
      | wrapper w => exact absurd (.inr rfl) hover
      | branch b =>
        have huntyped : Branch.has b Key.objectType = false :=
          Bool.eq_false_iff.mpr (not_or.mp hover).2
        have hself : Branch.merge b b = b :=
          Branch.merge_self_of_children hn fun e he => ih e he (Branch.WellFormed.node hn he)
        rw [Node.merged_laid hover rfl]
        change Node.ofBranch (Branch.merge b b) = _
        rw [hself, Node.ofBranch_of_untyped huntyped]

/-! ## A result laid over its own base -/

/-- A result laid over its own base is that result, if this holds for each node. -/
theorem Branch.merge_merge_left_of_children {b e : Branch} (hb : b.WellFormed) (he : e.WellFormed)
    (h : ∀ d ∈ e, ∀ old, (∀ o, old = some o → o.WellFormed) →
      Node.merged old (Node.merged old d.2) = Node.merged old d.2) :
    b.merge (b.merge e) = b.merge e := by
  have hbe := hb.merge he
  have hkeys : (b.merge (b.merge e)).keys = (b.merge e).keys := by
    rw [Branch.keys_merge hbe.1, Branch.keys_merge he.1]
    simp [List.filter_append, List.filter_filter]
  refine Entries.eq_of_find?_eq hkeys (hb.merge hbe).1 fun key => ?_
  refine (Branch.get?_merge hbe.1 key).trans ?_
  change _ = (b.merge e).get? key
  rw [Branch.get?_merge he.1]
  cases hek : e.get? key with
  | none =>
    cases hbk : b.get? key with
    | none => rfl
    | some n => exact congrArg some (Node.merged_self (hb.get? hbk))
  | some n => exact congrArg some (h (key, n) (Entries.mem_of_find? hek) _ fun _ ho => hb.get? ho)

/-- A node that was merged with an old one is not changed by merging it with the same old one again. -/
theorem Node.merged_merged {n : Node} (hn : n.WellFormed) {old : Option Node}
    (hold : ∀ o, old = some o → o.WellFormed) :
    Node.merged old (Node.merged old n) = Node.merged old n := by
  induction n using Node.inductionOnChildren generalizing old with
  | step n ih =>
    by_cases hstands : Overrides "" n ∨ ∀ o, old = some o → o.isMapping = false
    · rw [Node.merged_stands hstands, Node.merged_stands hstands]
    · obtain ⟨hover, hmeets⟩ := not_or.mp hstands
      obtain ⟨o, rfl, hmap⟩ : ∃ o, old = some o ∧ o.isMapping = true := by simpa using hmeets
      rw [Node.merged_laid hover hmap]
      -- what came out may have its type from below; then it replaces, with itself
      by_cases hover' : Overrides "" (Node.ofBranch (o.toBranch.merge n.toBranch))
      · exact Node.merged_stands (.inl hover')
      · rw [Node.merged_laid hover' hmap, Node.toBranch_ofBranch]
        refine congrArg _ (Branch.merge_merge_left_of_children (hold o rfl).toBranch hn.toBranch ?_)
        intro d hd old hold
        exact ih d hd (hn.toBranch.node hd) hold

/-- **A base laid under its own result changes nothing.** -/
theorem Branch.merge_merge_left {b e : Branch} (hb : b.WellFormed) (he : e.WellFormed) :
    b.merge (b.merge e) = b.merge e :=
  Branch.merge_merge_left_of_children hb he fun _ hd _ hold => Node.merged_merged (he.node hd) hold

/-! ## A result extended once more -/

/-- Extending twice is extending once, if this holds for each node. -/
theorem Branch.merge_merge_right_of_children {b e : Branch} (hb : b.WellFormed) (he : e.WellFormed)
    (h : ∀ d ∈ e, ∀ old, (∀ o, old = some o → o.WellFormed) →
      Node.merged (some (Node.merged old d.2)) d.2 = Node.merged old d.2) :
    (b.merge e).merge e = b.merge e := by
  have hkeys : ((b.merge e).merge e).keys = (b.merge e).keys := by
    have hnew : e.keys.filter (· ∉ (b.merge e).keys) = [] := by
      apply List.filter_eq_nil_iff.mpr
      intro key hkey
      rw [Branch.keys_merge he.1]
      simp [hkey]
    rw [Branch.keys_merge he.1, hnew, List.append_nil]
  refine Entries.eq_of_find?_eq hkeys ((hb.merge he).merge he).1 fun key => ?_
  refine (Branch.get?_merge he.1 key).trans ?_
  change _ = (b.merge e).get? key
  rw [Branch.get?_merge he.1]
  cases hek : e.get? key with
  | none => rfl
  | some n => exact congrArg some (h (key, n) (Entries.mem_of_find? hek) _ fun _ ho => hb.get? ho)

/-- Merging the same node a second time changes nothing. -/
theorem Node.merged_again {n : Node} (hn : n.WellFormed) {old : Option Node}
    (hold : ∀ o, old = some o → o.WellFormed) :
    Node.merged (some (Node.merged old n)) n = Node.merged old n := by
  induction n using Node.inductionOnChildren generalizing old with
  | step n ih =>
    by_cases hover : Overrides "" n
    · rw [Node.merged_stands (.inl hover), Node.merged_stands (.inl hover)]
    by_cases hmeets : ∀ o, old = some o → o.isMapping = false
    · -- nothing was there to be extended, so the node meets itself
      have hstands : Overrides "" n ∨ ∀ o, old = some o → o.isMapping = false := .inr hmeets
      rw [Node.merged_stands hstands]
      exact Node.merged_self hn
    · obtain ⟨o, rfl, hmap⟩ : ∃ o, old = some o ∧ o.isMapping = true := by simpa using hmeets
      rw [Node.merged_laid hover hmap, Node.merged_laid hover (Node.isMapping_ofBranch _),
        Node.toBranch_ofBranch]
      apply congrArg
      apply Branch.merge_merge_right_of_children (hold o rfl).toBranch hn.toBranch
      intro d hd old hold
      exact ih d hd (hn.toBranch.node hd) hold

/-- **Extending a result once more changes nothing.** -/
theorem Branch.merge_merge_right {b e : Branch} (hb : b.WellFormed) (he : e.WellFormed) :
    (b.merge e).merge e = b.merge e :=
  Branch.merge_merge_right_of_children hb he fun _ hd _ hold => Node.merged_again (he.node hd) hold

/-! ## The algebra of merging -/

/-- The empty definition takes over what extends it. -/
theorem Branch.nil_merge {e : Branch} (he : e.keys.Nodup) : Branch.merge [] e = e := by
  have hkeys : (Branch.merge [] e).keys = e.keys := by
    rw [Branch.keys_merge he]
    simp [Branch.keys]
  have hnodup : (Branch.merge [] e).keys.Nodup := hkeys ▸ he
  refine Entries.eq_of_find?_eq hkeys hnodup fun key => ?_
  refine (Branch.get?_merge he key).trans ?_
  change _ = e.get? key
  cases e.get? key with
  | none => rfl
  | some n =>
    have hstands : Overrides "" n ∨ ∀ o, Branch.get? [] key = some o → o.isMapping = false :=
      .inr fun _ hold => by cases hold
    exact congrArg some (Node.merged_stands hstands)

/-- **The laws of merging.** The empty definition is neutral on both sides, extending twice by the same
definition is extending once, and a result laid over its own base is that result, each with the order of
keys and of slots. -/
theorem Branch.merge_laws {b e : Branch} (hb : b.Canonical) (he : e.Canonical) :
    b.merge [] = b ∧ Branch.merge [] e = e ∧
      (b.merge e).merge e = b.merge e ∧ b.merge (b.merge e) = b.merge e := by
  refine ⟨by rw [Branch.merge], Branch.nil_merge he.nodup, ?_, ?_⟩
  · exact Branch.merge_merge_right hb.wellFormed he.wellFormed
  · exact Branch.merge_merge_left hb.wellFormed he.wellFormed

/-- A branch of fewer scalars than a wrapper has slots does not pass for a wrapper. -/
theorem Node.canonical_of_scalars {c : Branch} (hlength : c.length < 3) (hnodup : c.keys.Nodup)
    (hleaves : ∀ e ∈ c, ∃ s, e.2 = .scalar s) : (Node.branch c).Canonical := by
  refine .branch (fun hshape => ?_) hnodup fun e he => ?_
  · have hslots := hshape.1.length_eq
    simp only [Branch.keys, Slot.all, List.length_map, List.length_cons, List.length_nil] at hslots
    omega
  · obtain ⟨s, hs⟩ := hleaves e he
    exact hs ▸ .scalar s

/-- A page with a reference to a prototype, and a link that has nothing but its type. -/
def referringPage : Branch :=
  [("content", .wrapper ⟨some "Button", none, .null, [.value, .objectType, .expression]⟩),
    ("link", .branch [(Key.objectType, .scalar (.text "Link"))]), ("title", .scalar (.text "Home"))]

/-- What extends the page: a property for the reference, the two missing slots of the link, and a mapping
in place of the title. -/
def referringExtension : Branch :=
  [("title", .branch [("tag", .scalar (.text "h1"))]),
    ("link", .branch [(Key.value, .scalar .null), (Key.expression, .scalar .null)]),
    ("content", .branch [("label", .scalar (.text "Go"))])]

/-- The reference is opened into a branch and the link is closed into a wrapper, and both stay so. -/
theorem Branch.merge_laws_referringPage :
    referringPage.Canonical ∧ referringExtension.Canonical ∧
    referringPage.merge referringExtension =
      [("content", .branch [(Key.value, .scalar .null), (Key.objectType, .scalar (.text "Button")),
          (Key.expression, .scalar .null), ("label", .scalar (.text "Go"))]),
        ("link", .wrapper ⟨some "Link", none, .null, [.objectType, .value, .expression]⟩),
        ("title", .branch [("tag", .scalar (.text "h1"))])] ∧
    (referringPage.merge referringExtension).merge referringExtension =
      referringPage.merge referringExtension ∧
    referringPage.merge (referringPage.merge referringExtension) =
      referringPage.merge referringExtension := by
  have hpage : referringPage.Canonical := by
    refine ⟨by decide, ?_⟩
    simp only [referringPage, List.forall_mem_cons, List.not_mem_nil, false_implies, implies_true,
      and_true]
    exact ⟨.wrapper (by decide), Node.canonical_of_scalars (by decide) (by decide) (by simp),
      .scalar _⟩
  have hextension : referringExtension.Canonical := by
    refine ⟨by decide, ?_⟩
    simp only [referringExtension, List.forall_mem_cons, List.not_mem_nil, false_implies, implies_true,
      and_true]
    exact ⟨Node.canonical_of_scalars (by decide) (by decide) (by simp),
      Node.canonical_of_scalars (by decide) (by decide) (by simp),
      Node.canonical_of_scalars (by decide) (by decide) (by simp)⟩
  obtain ⟨_, _, hright, hleft⟩ := Branch.merge_laws hpage hextension
  exact ⟨hpage, hextension, rfl, hright, hleft⟩

end FusionInspect
