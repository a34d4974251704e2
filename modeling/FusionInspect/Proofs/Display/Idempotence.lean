import FusionInspect.Proofs.Display.NormalForm
import FusionInspect.Proofs.Tree.Overlay

/-!
# Flattening twice

A display has nothing left to take apart: each of its entries contributes itself, with its node
flattened again (`contribution_shown`). So flattening it again can only move entries, and every scalar
stays at its path. The display is as it was exactly when each of its levels stays as it is when it is laid
again. That holds when the levels are untangled, and fails when an entry refers to a meta key, which
was moved to the front only after the entry had found its place.
-/

namespace FusionInspect.Display

open Placement

/-! ## The second flattening -/

/-- A node of a display, flattened again. -/
def again (known : String → Bool) : Node → Node
  | .branch b => .branch (flattenBranch known b)
  | n => n

/-- Where each entry contributes itself, flattened again, so does the branch. -/
theorem contributions_eq_map {known : String → Bool} {b : Branch}
    (h : ∀ e ∈ b, contribution known e.1 e.2 = [(e.1, again known e.2)]) :
    contributions known false b = b.map fun e => (e.1, again known e.2) := by
  induction b with
  | nil => rw [contributions]; rfl
  | cons e rest ih =>
    obtain ⟨he, hrest⟩ := List.forall_mem_cons.mp h
    rw [contributions, he, ih hrest]
    rfl

/-- An entry of a display contributes itself, with its node flattened again. -/
theorem contribution_shown (known : String → Bool) {n : Node} (hshown : n.EachLevel Shown)
    (key : String) (hkey : key = Key.metaProperties → n.isMapping = false) :
    contribution known key n = [(key, again known n)] := by
  induction hshown generalizing key with
  | scalar s => rw [contribution]; rfl
  | @branch b hb _ ih =>
    have hcontributions : contributions known false b = b.map fun e => (e.1, again known e.2) :=
      contributions_eq_map fun e he => ih e he e.1 (hb.unnested e he)
    have hne : level (contributions known false b) ≠ [] := by
      intro hnil
      have hperm := laid_perm (b.map fun e => (e.1, again known e.2))
      rw [← level_of_nodup (by rw [Entries.map_fst_map]; exact hb.nodup), ← hcontributions, hnil,
        hcontributions] at hperm
      exact hb.nonempty (List.map_eq_nil_iff.mp hperm.symm.eq_nil)
    have hkey' : ¬(key == Key.metaProperties) = true := fun h => by cases hkey (beq_iff_eq.mp h)
    rw [contribution, if_neg hkey', hb.untyped]
    simp only [shown, List.isEmpty_iff, hne, if_false]
    rfl

section

variable {b : Branch} (hplain : Plain b) (hshown : b.EachBelow Shown) (known : String → Bool)

include hplain hshown

/-- Flattening a branch of a display lays its entries again, each flattened again. -/
theorem flattenBranch_shown :
    flattenBranch known b = laid (b.map fun e => (e.1, again known e.2)) := by
  have hcontributions := contributions_eq_map fun e he =>
    contribution_shown known (hshown e he) e.1 (hplain.unnested e he)
  rw [flattenBranch, hcontributions]
  exact level_of_nodup (by rw [Entries.map_fst_map]; exact hplain.nodup)

/-- No entry is added then and none is lost. -/
theorem flattenBranch_perm :
    (flattenBranch known b).Perm (b.map fun e => (e.1, again known e.2)) := by
  rw [flattenBranch_shown hplain hshown]
  exact laid_perm _

/-- A branch of a display stays as it is exactly if its level does and each of its nodes does. -/
theorem flattenBranch_eq_self_iff :
    flattenBranch known b = b ↔ laid b = b ∧ ∀ e ∈ b, again known e.2 = e.2 := by
  have hmap : (∀ e ∈ b, again known e.2 = e.2) → (b.map fun e => (e.1, again known e.2)) = b := by
    intro hall
    refine (List.map_congr_left fun e he => ?_).trans (List.map_id b)
    rw [hall e he]
    rfl
  constructor
  · intro hself
    have hall : ∀ e ∈ b, again known e.2 = e.2 := by
      intro e he
      have hmem : (e.1, again known e.2) ∈ b := by
        rw [← hself, (flattenBranch_perm hplain hshown known).mem_iff]
        exact List.mem_map.mpr ⟨e, he, rfl⟩
      exact congrArg Prod.snd (eq_of_key_eq hplain.nodup hmem he rfl)
    rw [flattenBranch_shown hplain hshown, hmap hall] at hself
    exact ⟨hself, hall⟩
  · rintro ⟨hlaid, hall⟩
    rw [flattenBranch_shown hplain hshown, hmap hall, hlaid]

end

/-- A level that stays as it is when it is laid again. -/
def Settled (b : Branch) : Prop :=
  laid b = b

/-- A node of a display stays as it is exactly if each of its levels does. -/
theorem again_eq_self_iff (known : String → Bool) {n : Node} (hshown : n.EachLevel Shown) :
    again known n = n ↔ n.EachLevel Settled := by
  induction hshown with
  | scalar s => exact iff_of_true rfl (.scalar s)
  | @branch b hb hbelow ih =>
    rw [again, Node.branch.injEq, flattenBranch_eq_self_iff hb.toPlain hbelow]
    constructor
    · rintro ⟨hlaid, hall⟩
      exact .branch hlaid fun e he => (ih e he).mp (hall e he)
    · intro hsettled
      cases hsettled with
      | branch hlaid hall => exact ⟨hlaid, fun e he => (ih e he).mpr (hall e he)⟩

/-- Every scalar of a display stays at its path. -/
theorem nodeAt?_flattenBranch {b : Branch} (hplain : Plain b) (hshown : b.EachBelow Shown)
    (known : String → Bool) (path : List String) (s : Scalar) :
    (flattenBranch known b).nodeAt? path = some (.scalar s) ↔ b.nodeAt? path = some (.scalar s) := by
  induction path generalizing b with
  | nil => simp
  | cons key path ih =>
    have hget : (flattenBranch known b).get? key = (b.get? key).map (again known) := by
      have hperm := flattenBranch_perm hplain hshown known
      rw [Branch.get?, Entries.find?_eq_of_perm hperm _ key, Entries.find?_map, Branch.get?]
      rw [(hperm.map Prod.fst).nodup_iff, Entries.map_fst_map]
      exact hplain.nodup
    rw [Branch.nodeAt?_cons, Branch.nodeAt?_cons, hget]
    cases hnode : b.get? key with
    | none => exact Iff.rfl
    | some n =>
      have hn : n.EachLevel Shown := hshown _ (Entries.mem_of_find? hnode)
      cases hn with
      | scalar t => exact Iff.rfl
      | branch hc hbelow => exact ih hc.toPlain hbelow

/-! ## Definitions -/

/-- Whether a key is one of the bookkeeping that a display leaves out at its root. -/
def isBookkeeping (key : String) : Bool :=
  key == Key.prototypeObjectName || key == Key.stopInheritanceChain

/-- A display is the flattened definition without the entries of the bookkeeping. -/
theorem flatten_eq (table x : Branch) :
    flatten table x = (flattenBranch table.has x).filter fun e => !isBookkeeping e.1 := by
  have hnd : ((flattenBranch table.has x).map Prod.fst).Nodup := nodup_keys_level _
  rw [flatten, Branch.erase, Branch.erase, Entries.erase_eq_filter hnd, Entries.erase_eq_filter,
    List.filter_filter]
  · refine List.filter_congr fun e _ => ?_
    rw [isBookkeeping, Bool.not_or, Bool.and_comm]
    rfl
  · exact hnd.sublist (List.filter_sublist.map Prod.fst)

section

variable {x : Branch} (hx : x.WellFormed) (hfree : x.WrapperFree) (table : Branch)

include hx hfree

theorem contributes_of_wellFormed (known : String → Bool) :
    ∀ d ∈ x, ∀ e ∈ contribution known d.1 d.2, Contributes d.1 d.2 e :=
  fun d hd => contribution_contributes known (hfree d hd) d.1 (hx.node hd)

/-- The root of a display has distinct keys and no branch of meta properties. -/
theorem plain_flatten : Plain (flatten table x) := by
  have hplain : Plain (flattenBranch table.has x) :=
    plain_level (contributes_of_wellFormed hx hfree table.has)
  rw [flatten_eq]
  exact ⟨hplain.nodup.sublist (List.filter_sublist.map Prod.fst),
    fun e he => hplain.unnested e (List.mem_filter.mp he).1⟩

/-- All that is below the root of a flattened definition is in the form of displays. -/
theorem below_flattenBranch (known : String → Bool) : (flattenBranch known x).EachBelow Shown :=
  below_level (contributes_of_wellFormed hx hfree known)

/-- So is all that is below the root of a display. -/
theorem below_flatten : (flatten table x).EachBelow Shown := by
  rw [flatten_eq]
  exact fun e he => below_flattenBranch hx hfree table.has e (List.mem_filter.mp he).1

/-- The second flattening finds no bookkeeping to leave out. -/
theorem flatten_flatten_eq :
    flatten table (flatten table x) = flattenBranch table.has (flatten table x) := by
  have hperm := flattenBranch_perm (plain_flatten hx hfree table) (below_flatten hx hfree table)
    table.has
  nth_rewrite 1 [flatten_eq]
  refine List.filter_eq_self.mpr fun e he => ?_
  obtain ⟨d, hd, rfl⟩ := List.mem_map.mp (hperm.mem_iff.mp he)
  rw [flatten_eq] at hd
  exact (List.mem_filter.mp hd).2

end

/-- No level of a display is tangled; at the root also the bookkeeping counts as gone. -/
def UntangledThroughout (display : Branch) : Prop :=
  Untangled isBookkeeping display ∧ display.EachBelow (Untangled fun _ => false)

/-- An untangled level stays as it is when it is laid again. -/
theorem Untangled.settled {b : Branch} (hshown : Shown b) (h : Untangled (fun _ => false) b) :
    Settled b := by
  obtain ⟨es, hnd, rfl⟩ := hshown.placed
  have hes : Untangled (fun _ => false) es :=
    h.of_subset hshown.nodup fun e he => (laid_perm es).mem_iff.mpr he
  have hlaid := hes.laid_filter_laid hnd fun _ h => by cases h
  simpa [Settled] using hlaid

/-- So does the root of a display, also when the bookkeeping was taken away after it was laid. -/
theorem Untangled.settled_flatten {table x : Branch}
    (h : Untangled isBookkeeping (flattenBranch table.has x)) : Settled (flatten table x) := by
  rw [flatten_eq, Settled]
  rw [flattenBranch, level_eq] at h ⊢
  have hnd : ((Branch.ofEntries (contributions table.has false x)).map Prod.fst).Nodup :=
    Entries.nodup_collect _
  have hes := h.of_subset (nodup_keys_laid hnd) fun e he => (laid_perm _).mem_iff.mpr he
  refine hes.laid_filter_laid hnd fun key hkey => ?_
  rw [isBookkeeping, Bool.or_eq_true, beq_iff_eq, beq_iff_eq] at hkey
  rcases hkey with rfl | rfl
  · decide
  · decide

/-- **Flattening twice.** Only the order of entries can change: every scalar stays at its path. The
order stays exactly when each level stays as it is when it is laid again, and that holds whenever the
levels of the display are untangled. -/
theorem flatten_flatten (table x : Branch) (hx : x.WellFormed) (hfree : x.WrapperFree) :
    (∀ path s, (flatten table (flatten table x)).nodeAt? path = some (.scalar s) ↔
      (flatten table x).nodeAt? path = some (.scalar s)) ∧
    (flatten table (flatten table x) = flatten table x ↔
      Settled (flatten table x) ∧ (flatten table x).EachBelow Settled) ∧
    (UntangledThroughout (flattenBranch table.has x) →
      flatten table (flatten table x) = flatten table x) := by
  have hplain : Plain (flatten table x) := plain_flatten hx hfree table
  have hshown : (flatten table x).EachBelow Shown := below_flatten hx hfree table
  have hiff : flatten table (flatten table x) = flatten table x ↔
      Settled (flatten table x) ∧ (flatten table x).EachBelow Settled := by
    rw [flatten_flatten_eq hx hfree table, flattenBranch_eq_self_iff hplain hshown]
    exact and_congr Iff.rfl (forall₂_congr fun e he => again_eq_self_iff _ (hshown e he))
  refine ⟨fun path s => ?_, hiff, fun huntangled => hiff.mpr ⟨huntangled.1.settled_flatten, ?_⟩⟩
  · rw [flatten_flatten_eq hx hfree table]
    exact nodeAt?_flattenBranch hplain hshown table.has path s
  · intro e he
    have hmem : e ∈ flattenBranch table.has x := by
      rw [flatten_eq] at he
      exact (List.mem_filter.mp he).1
    exact (hshown e he).imp (fun _ => Untangled.settled) (huntangled.2 e hmem)

/-- A page whose entries stand beside each other, and a typed entry and a meta property among them. -/
def linkPage : Branch :=
  [("title", .scalar (.text "Home")),
    ("lead", .branch [("@position", .scalar (.text "before title")), ("tag", .scalar (.text "p"))]),
    ("link", .branch [(Key.objectType, .scalar (.text "Link")),
      ("@position", .scalar (.text "after lead 5")), ("href", .scalar (.text "/"))]),
    (Key.metaProperties, .branch [("process", .scalar (.text "trim"))])]

/-- How the page is displayed where its type is not known. -/
def linkDisplay : Branch :=
  [("@process", .scalar (.text "trim")),
    ("lead", .branch [("@position", .scalar (.text "before title")), ("tag", .scalar (.text "p"))]),
    ("link [Link] (?)", .branch [("@position", .scalar (.text "after lead 5")),
      ("href", .scalar (.text "/"))]),
    ("title", .scalar (.text "Home"))]

theorem untangled_linkDisplay : UntangledThroughout linkDisplay := by
  refine ⟨⟨fun e he => ?_, by decide +kernel, by decide +kernel⟩, ?_⟩
  · -- the link stands beside the lead, and the lead beside the title
    have htitle : Rooted linkDisplay 0 ("title", .scalar (.text "Home")) := .anchor rfl
    have hlead := Rooted.beside (e := linkDisplay[1]) (by simp [linkDisplay]) rfl htitle
    have hlink := Rooted.beside (e := linkDisplay[2]) (by simp [linkDisplay]) rfl hlead
    simp only [linkDisplay, List.mem_cons, List.not_mem_nil, or_false] at he
    rcases he with rfl | rfl | rfl | rfl
    · exact ⟨0, .anchor rfl⟩
    · exact ⟨1, hlead⟩
    · exact ⟨2, hlink⟩
    · exact ⟨0, htitle⟩
  · simp only [linkDisplay, Branch.eachBelow_cons, Branch.eachBelow_nil, Node.eachLevel_scalar,
      Node.eachLevel_branch, and_true, true_and]
    exact ⟨untangled_of_anchored (by decide +kernel) (by decide +kernel),
      untangled_of_anchored (by decide +kernel) (by decide +kernel)⟩

/-- The page is displayed alike the second time. -/
theorem flatten_flatten_linkPage : linkPage.WellFormed ∧ linkPage.WrapperFree ∧
    UntangledThroughout (flattenBranch (Branch.has []) linkPage) ∧
    flatten [] (flatten [] linkPage) = flatten [] linkPage := by
  have hwf : linkPage.WellFormed := by decide
  have hfree : linkPage.WrapperFree := by simp [Branch.WrapperFree, linkPage]
  have hdisplay : flattenBranch (Branch.has []) linkPage = linkDisplay := rfl
  have huntangled : UntangledThroughout (flattenBranch (Branch.has []) linkPage) :=
    hdisplay ▸ untangled_linkDisplay
  exact ⟨hwf, hfree, huntangled, (flatten_flatten [] linkPage hwf hfree).2.2 huntangled⟩

/-- A page whose lead stands before a meta property. -/
def leadPage : Branch :=
  [("title", .scalar (.text "x")),
    ("lead", .branch [("@position", .scalar (.text "before @process")), ("tag", .scalar (.text "p"))]),
    (Key.metaProperties, .branch [("process", .scalar (.text "trim"))])]

/-- The lead stays behind when the meta property moves to the front, and follows it the second time. -/
theorem flatten_flatten_leadPage_ne : leadPage.WellFormed ∧ leadPage.WrapperFree ∧
    (flatten [] leadPage).keys = ["@process", "title", "lead"] ∧
    (flatten [] (flatten [] leadPage)).keys = ["@process", "lead", "title"] ∧
    flatten [] (flatten [] leadPage) ≠ flatten [] leadPage := by
  have honce : (flatten [] leadPage).keys = ["@process", "title", "lead"] := by decide +kernel
  have htwice : (flatten [] (flatten [] leadPage)).keys = ["@process", "lead", "title"] := by
    decide +kernel
  refine ⟨by decide, ?_, honce, htwice, fun h => ?_⟩
  · simp [Branch.WrapperFree, leadPage]
  · rw [h, honce] at htwice
    exact absurd htwice (by decide)

end FusionInspect.Display
