import FusionInspect.Proofs.Prototype.KeyOrder
import FusionInspect.Proofs.Tree.Accumulation

/-!
# Canonical trees

A mapping of the three slots can be written down in two ways, as a wrapper and as a branch of three
entries, and the two are displayed differently. A tree is CANONICAL when every such mapping in it is a
wrapper, besides being well formed. Reading builds canonical trees, and merging, absorbing and sorting
keep them so, since each of them classifies every mapping that it has changed.

The root of a tree is a branch on its own and no node. It may have the three slots and no other key,
as it does when a file declares nothing else; only what is below it is asked to be canonical.
-/

namespace FusionInspect

/-- Every branch in the node has distinct keys and none of them the shape of a wrapper, and every
wrapper has its three slots. -/
inductive Node.Canonical : Node → Prop where
  | scalar (s : Scalar) : Canonical (.scalar s)
  | wrapper {w : Wrapper} : w.order.Perm Slot.all → Canonical (.wrapper w)
  | branch {b : Branch} : ¬ b.WrapperShaped → b.keys.Nodup → (∀ e ∈ b, Canonical e.2) →
      Canonical (.branch b)

/-- The keys of the branch are distinct and its nodes are canonical. -/
structure Branch.Canonical (b : Branch) : Prop where
  nodup : b.keys.Nodup
  nodes : ∀ e ∈ b, e.2.Canonical

namespace Branch.Canonical

variable {b c : Branch}

theorem nil : Branch.Canonical [] :=
  ⟨List.nodup_nil, fun _ he => absurd he List.not_mem_nil⟩

theorem get? (hb : b.Canonical) {key : String} {n : Node} (h : b.get? key = some n) : n.Canonical :=
  hb.nodes (key, n) (Entries.mem_of_find? h)

theorem sublist (hb : b.Canonical) (h : c.Sublist b) : c.Canonical :=
  ⟨hb.nodup.sublist (h.map Prod.fst), fun e he => hb.nodes e (h.subset he)⟩

theorem erase (hb : b.Canonical) (key : String) : (b.erase key).Canonical :=
  hb.sublist (Entries.erase_sublist key b)

/-- A mapping is canonical once it is classified. -/
theorem ofBranch (hb : b.Canonical) : (Node.ofBranch b).Canonical := by
  by_cases hshape : b.WrapperShaped
  · obtain ⟨w, hw⟩ := Branch.wrapperShaped_iff.mp hshape
    rw [Node.ofBranch, hw]
    exact .wrapper (Wrapper.order_perm_of_ofBranch? hw)
  · rw [Node.ofBranch_of_not_shaped hshape]
    exact .branch hshape hb.nodup hb.nodes

/-- Canonical nodes make a canonical branch, also where keys repeat. -/
theorem ofEntries {entries : List (String × Node)} (h : ∀ e ∈ entries, e.2.Canonical) :
    (Branch.ofEntries entries).Canonical :=
  ⟨Entries.nodup_collect entries, fun e he => h e (Entries.mem_of_mem_collect he)⟩

end Branch.Canonical

/-- The entries of a canonical node are a canonical branch. -/
theorem Node.Canonical.toBranch {n : Node} (hn : n.Canonical) : n.toBranch.Canonical := by
  cases hn with
  | scalar s => exact .nil
  | branch _ hnd hnodes => exact ⟨hnd, hnodes⟩
  | @wrapper w horder =>
    refine ⟨Wrapper.nodup_keys_toBranch horder, fun e he => ?_⟩
    obtain ⟨s, rfl⟩ := Wrapper.mem_toBranch he
    exact .scalar _

/-- A canonical node is well-formed: only the condition on the shape of branches is lost. -/
theorem Node.Canonical.wellFormed {n : Node} (hn : n.Canonical) : n.WellFormed := by
  induction hn with
  | scalar s => trivial
  | wrapper horder => exact horder
  | branch _ hnd _ ih => exact ⟨hnd, Branch.nodesWellFormed_iff.mpr ih⟩

theorem Branch.Canonical.wellFormed {b : Branch} (hb : b.Canonical) : b.WellFormed :=
  ⟨hb.nodup, Branch.nodesWellFormed_iff.mpr fun e he => (hb.nodes e he).wellFormed⟩

/-! ## Reading -/

mutual
/-- The node of any JSON value is canonical. -/
theorem Node.canonical_ofJson : ∀ v : Json, (Node.ofJson v).Canonical
  | .null => by rw [Node.ofJson]; exact .scalar _
  | .bool _ => by rw [Node.ofJson]; exact .scalar _
  | .number _ => by rw [Node.ofJson]; exact .scalar _
  | .string _ => by rw [Node.ofJson]; exact .scalar _
  | .array items => by
    rw [Node.ofJson]
    exact (Branch.Canonical.ofEntries (Branch.canonical_ofItems 0 items)).ofBranch
  | .object entries => by
    rw [Node.ofJson]
    exact (Branch.Canonical.ofEntries (Branch.canonical_ofMembers entries)).ofBranch
/-- The entries made of a JSON list are canonical. -/
theorem Branch.canonical_ofItems (i : Nat) : ∀ (items : List Json),
    ∀ e ∈ Branch.ofItems i items, e.2.Canonical
  | [], _, he => by cases he
  | v :: rest, e, he => by
    rw [Branch.ofItems] at he
    rcases List.mem_cons.mp he with rfl | he
    · exact Node.canonical_ofJson v
    · exact Branch.canonical_ofItems (i + 1) rest e he
/-- The entries made of a JSON object are canonical. -/
theorem Branch.canonical_ofMembers : ∀ (entries : List (String × Json)),
    ∀ e ∈ Branch.ofMembers entries, e.2.Canonical
  | [], _, he => by cases he
  | (k, v) :: rest, e, he => by
    rw [Branch.ofMembers] at he
    rcases List.mem_cons.mp he with rfl | he
    · exact Node.canonical_ofJson v
    · exact Branch.canonical_ofMembers rest e he
end

/-! ## Laying over -/

/-- Overlays of canonical branches are canonical: every mapping that is laid over another is classified
anew. -/
theorem IsOverlay.canonical {covers : String → Node → Prop} {op : Branch → Branch → Branch}
    (h : IsOverlay covers op) (hnd : ∀ {b e : Branch}, b.keys.Nodup → (op b e).keys.Nodup)
    {b e : Branch} (hb : b.Canonical) (he : e.Canonical) : (op b e).Canonical :=
  ⟨hnd hb.nodup, h.forall_nodes hnd (fun _ hn => ⟨hn.toBranch.nodup, hn.toBranch.nodes⟩)
    (fun _ hb hnodes => Branch.Canonical.ofBranch ⟨hb, hnodes⟩) hb.nodup hb.nodes he.nodup he.nodes⟩

/-- Merging keeps branches canonical. -/
theorem Branch.Canonical.merge {b e : Branch} (hb : b.Canonical) (he : e.Canonical) :
    (b.merge e).Canonical := by
  refine Branch.merge_isOverlay.canonical (fun hnd => ?_) hb he
  rw [Branch.merge_eq_combine]
  exact Branch.nodup_combine _ _ hnd

/-- So does absorbing. -/
theorem Branch.Canonical.absorb {b e : Branch} (hb : b.Canonical) (he : e.Canonical) :
    (b.absorb e).Canonical :=
  Branch.absorb_isOverlay.canonical (Branch.nodup_absorb _) hb he

/-! ## Sorting -/

/-- Sorting keeps a node canonical, since the shape of a wrapper does not depend on the order of keys. -/
theorem Node.Canonical.sortKeys {n : Node} (hn : n.Canonical) : n.sortKeys.Canonical := by
  induction hn with
  | scalar s =>
    rw [Node.sortKeys]
    exact .scalar s
  | @wrapper w horder =>
    rw [Node.sortKeys]
    exact .wrapper ((Order.sort_perm _ w.order).trans horder)
  | @branch b hshape hnd hnodes ih =>
    have hwf : (Node.branch b).WellFormed := (Node.Canonical.branch hshape hnd hnodes).wellFormed
    have hsorted := hwf.sortKeys
    have halike := Node.alike_sortKeys hwf
    rw [Node.sortKeys] at hsorted halike ⊢
    refine .branch (fun hs => hshape (Branch.Alike.wrapperShaped hsorted.1 hnd halike hs)) hsorted.1 ?_
    intro e he
    rw [(Branch.sortEntries_perm _).mem_iff, Branch.sortChildren_eq_map] at he
    obtain ⟨d, hd, rfl⟩ := List.mem_map.mp he
    exact ih d hd

/-- The same for a branch. -/
theorem Branch.Canonical.sortKeys {b : Branch} (hb : b.Canonical) : b.sortKeys.Canonical := by
  refine ⟨hb.wellFormed.sortKeys.1, fun e he => ?_⟩
  unfold Branch.sortKeys at he
  rw [(Branch.sortEntries_perm _).mem_iff, Branch.sortChildren_eq_map] at he
  obtain ⟨d, hd, rfl⟩ := List.mem_map.mp he
  exact (hb.nodes d hd).sortKeys

end FusionInspect
