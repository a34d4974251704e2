import Mathlib.Data.List.Perm.Subperm
import FusionInspect.Tree.Node

/-!
# Well-formed trees

A branch is a list of entries, so the type admits trees that no reader builds: a branch that has a
key twice, or a wrapper that has lost a slot. A tree is WELL FORMED when the keys of every branch in
it are distinct and every wrapper has its three slots, each once.

Every operation that changes a mapping takes it apart with `Node.toBranch` and classifies what comes
out with `Node.ofBranch`. Nothing is lost on that way (`toBranch_ofBranch`): a wrapper is another
reading of the same three entries.
-/

namespace FusionInspect

/-! ## Slots and their keys -/

/-- The slots of a wrapper, each once. -/
def Slot.all : List Slot := [.objectType, .expression, .value]

theorem Slot.key_injective : ∀ {s t : Slot}, s.key = t.key → s = t := by
  intro s t h
  cases s <;> cases t <;> first | rfl | exact absurd h (by decide)

theorem Slot.nodup_all : (Slot.all.map Slot.key).Nodup := by decide

/-- A slot is found by its key, and by no other text. -/
theorem Slot.ofKey?_eq_some {key : String} {s : Slot} (h : Slot.ofKey? key = some s) : s.key = key := by
  unfold Slot.ofKey? at h
  split at h
  · next hk => cases h; exact (beq_iff_eq.mp hk).symm
  · split at h
    · next hk => cases h; exact (beq_iff_eq.mp hk).symm
    · split at h
      · next hk => cases h; exact (beq_iff_eq.mp hk).symm
      · cases h

/-- Keys that are all those of slots are the keys of the slots that were read. -/
theorem Slot.map_key_of_mapM : ∀ {keys : List String} {order : List Slot},
    keys.mapM Slot.ofKey? = some order → order.map Slot.key = keys
  | [], order, h => by
    simp only [List.mapM_nil, Option.pure_def, Option.some.injEq] at h
    subst h
    rfl
  | key :: keys, order, h => by
    simp only [List.mapM_cons, Option.bind_eq_bind, Option.pure_def, Option.bind_eq_some_iff,
      Option.some.injEq] at h
    obtain ⟨s, hs, rest, hrest, rfl⟩ := h
    rw [List.map_cons, Slot.ofKey?_eq_some hs, Slot.map_key_of_mapM hrest]

/-! ## The predicate -/

mutual
/-- Every branch in the node has distinct keys, every wrapper its three slots. -/
def Node.WellFormed : Node → Prop
  | .scalar _ => True
  | .wrapper w => w.order.Perm Slot.all
  | .branch b => (Branch.keys b).Nodup ∧ Branch.NodesWellFormed b
/-- The nodes of a branch are well formed. -/
def Branch.NodesWellFormed : Branch → Prop
  | [] => True
  | (_, n) :: rest => n.WellFormed ∧ Branch.NodesWellFormed rest
end

/-- The keys of the branch are distinct and its nodes are well formed. -/
def Branch.WellFormed (b : Branch) : Prop :=
  b.keys.Nodup ∧ b.NodesWellFormed

mutual
/-- Well-formedness of a node, decided by a walk through it. -/
def Node.decideWellFormed : (n : Node) → Decidable n.WellFormed
  | .scalar _ => .isTrue trivial
  | .wrapper w => inferInstanceAs (Decidable (w.order.Perm Slot.all))
  | .branch b =>
    have := Branch.decideNodesWellFormed b
    inferInstanceAs (Decidable ((Branch.keys b).Nodup ∧ Branch.NodesWellFormed b))
/-- Well-formedness of the nodes of a branch, decided one after the other. -/
def Branch.decideNodesWellFormed : (b : Branch) → Decidable b.NodesWellFormed
  | [] => .isTrue trivial
  | (_, n) :: rest =>
    have := Node.decideWellFormed n
    have := Branch.decideNodesWellFormed rest
    inferInstanceAs (Decidable (n.WellFormed ∧ Branch.NodesWellFormed rest))
end

instance (b : Branch) : Decidable b.NodesWellFormed := Branch.decideNodesWellFormed b

instance (b : Branch) : Decidable b.WellFormed :=
  inferInstanceAs (Decidable (b.keys.Nodup ∧ b.NodesWellFormed))

namespace Branch

/-- The recursive condition on the nodes of a branch is one on each node. -/
theorem nodesWellFormed_iff : ∀ {b : Branch}, b.NodesWellFormed ↔ ∀ e ∈ b, e.2.WellFormed
  | [] => by simp [NodesWellFormed]
  | (k, n) :: rest => by
    rw [NodesWellFormed, nodesWellFormed_iff (b := rest)]
    simp

theorem wellFormed_nil : WellFormed [] := by
  simp [WellFormed, NodesWellFormed, keys]

theorem WellFormed.node {b : Branch} (hb : b.WellFormed) {e : String × Node} (he : e ∈ b) :
    e.2.WellFormed :=
  nodesWellFormed_iff.mp hb.2 e he

theorem WellFormed.get? {b : Branch} (hb : b.WellFormed) {key : String} {n : Node}
    (h : b.get? key = some n) : n.WellFormed :=
  hb.node (Entries.mem_of_find? h)

/-- Each entry of a well-formed branch is found at its key. -/
theorem WellFormed.get?_of_mem {b : Branch} (hb : b.WellFormed) {e : String × Node} (he : e ∈ b) :
    b.get? e.1 = some e.2 :=
  (Entries.find?_eq_some_iff_mem hb.1).mpr he

/-- Inserting a well-formed node keeps a branch well-formed. -/
theorem WellFormed.insert {b : Branch} (hb : b.WellFormed) (key : String) {n : Node}
    (hn : n.WellFormed) : (b.insert key n).WellFormed := by
  refine ⟨Entries.nodup_put key n hb.1, nodesWellFormed_iff.mpr fun e he => ?_⟩
  rcases Entries.mem_put he with rfl | he
  · exact hn
  · exact hb.node he

/-- So does inserting any number of them. -/
theorem WellFormed.insertAll {b : Branch} {es : List (String × Node)} (hb : b.WellFormed)
    (hes : ∀ e ∈ es, e.2.WellFormed) : (b.insertAll es).WellFormed :=
  ⟨Entries.nodup_putAll hb.1 es, nodesWellFormed_iff.mpr fun e he =>
    (Entries.mem_putAll he).elim hb.node (hes e)⟩

/-- What keeps only some entries keeps a branch well formed. -/
theorem WellFormed.sublist {b c : Branch} (hb : b.WellFormed) (h : c.Sublist b) : c.WellFormed :=
  ⟨hb.1.sublist (h.map Prod.fst), nodesWellFormed_iff.mpr fun _ he => hb.node (h.subset he)⟩

/-- Whether a branch is well-formed does not depend on the order of its entries. -/
theorem WellFormed.perm {b c : Branch} (hb : b.WellFormed) (h : b.Perm c) : c.WellFormed :=
  ⟨(h.map Prod.fst).nodup hb.1, nodesWellFormed_iff.mpr fun _ he => hb.node (h.mem_iff.mpr he)⟩

theorem WellFormed.erase {b : Branch} (hb : b.WellFormed) (key : String) : (b.erase key).WellFormed :=
  hb.sublist (Entries.erase_sublist key b)

end Branch

/-! ## Mappings taken apart and classified again -/

theorem Wrapper.keys_toBranch (w : Wrapper) : w.toBranch.keys = w.order.map Slot.key := by
  simp [Wrapper.toBranch, Branch.keys, Function.comp_def]

/-- A wrapper has a scalar in each of its slots and nothing else. -/
theorem Wrapper.mem_toBranch {w : Wrapper} {e : String × Node} (he : e ∈ w.toBranch) :
    ∃ s, e = (s.key, .scalar (w.slot s)) := by
  obtain ⟨s, _, rfl⟩ := List.mem_map.mp he
  exact ⟨s, rfl⟩

/-- A wrapper of the three slots has each key once. -/
theorem Wrapper.nodup_keys_toBranch {w : Wrapper} (h : w.order.Perm Slot.all) :
    w.toBranch.keys.Nodup := by
  rw [w.keys_toBranch]
  exact (h.map Slot.key).nodup_iff.mpr Slot.nodup_all

/-- The entries of a well-formed node are a well-formed branch. -/
theorem Node.WellFormed.toBranch : ∀ {n : Node}, n.WellFormed → n.toBranch.WellFormed
  | .scalar _, _ => Branch.wellFormed_nil
  | .branch _, h => h
  | .wrapper w, h => by
    refine ⟨Wrapper.nodup_keys_toBranch h, Branch.nodesWellFormed_iff.mpr fun e he => ?_⟩
    obtain ⟨s, rfl⟩ := Wrapper.mem_toBranch he
    trivial

/-- What a branch that reads as a wrapper holds. -/
theorem Wrapper.ofBranch?_eq_some {b : Branch} {w : Wrapper} (h : Wrapper.ofBranch? b = some w) :
    b.length = 3 ∧ w.order.map Slot.key = b.keys ∧
      ∀ s : Slot, b.get? s.key = some (.scalar (w.slot s)) := by
  unfold Wrapper.ofBranch? at h
  obtain ⟨_, hguard, hread⟩ := Option.bind_eq_some_iff.mp h
  simp only [Option.bind_eq_bind, Option.bind_eq_some_iff, Option.pure_def,
    Option.some.injEq] at hread
  obtain ⟨t, ht, objectType, hty, x, hx, expression, hex, v, hv, value, hval, order, horder,
    rfl⟩ := hread
  have hlen : b.length = 3 := by
    by_cases hlen : b.length = 3
    · exact hlen
    · rw [guard, if_neg hlen] at hguard
      cases hguard
  have slotText : ∀ {n : Node} {o : Option String}, n.slotText? = some o →
      n = .scalar (o.elim .null .text) := by
    intro n o hn
    unfold Node.slotText? at hn
    split at hn
    · cases hn; rfl
    · cases hn; rfl
    · cases hn
  refine ⟨hlen, Slot.map_key_of_mapM horder, fun s => ?_⟩
  cases s with
  | objectType => exact ht.trans (congrArg some (slotText hty))
  | expression => exact hx.trans (congrArg some (slotText hex))
  | value =>
    refine hv.trans (congrArg some ?_)
    cases v with
    | scalar s => cases hval; rfl
    | wrapper _ => cases hval
    | branch _ => cases hval

/-- A branch that reads as a wrapper has the three slots, each once: three entries leave no room for
another key. -/
theorem Wrapper.order_perm_of_ofBranch? {b : Branch} {w : Wrapper}
    (h : Wrapper.ofBranch? b = some w) : w.order.Perm Slot.all := by
  obtain ⟨hlen, hkeys, hslots⟩ := Wrapper.ofBranch?_eq_some h
  have hsub : Slot.all.Subperm w.order := by
    refine List.subperm_of_subset (by decide) fun s _ => ?_
    have hmem : s.key ∈ w.order.map Slot.key := by
      rw [hkeys]
      exact List.mem_map_of_mem (Entries.mem_of_find? (hslots s))
    obtain ⟨t, ht, hts⟩ := List.mem_map.mp hmem
    exact Slot.key_injective hts ▸ ht
  have hle : w.order.length ≤ Slot.all.length := by
    have := congrArg List.length hkeys
    simp only [List.length_map, Branch.keys, hlen] at this
    exact Nat.le_of_eq this
  exact (hsub.perm_of_length_le hle).symm

/-- A branch that is read as a wrapper is what the wrapper shows, its slots in the same order. -/
theorem Wrapper.toBranch_of_ofBranch? {b : Branch} {w : Wrapper} (h : Wrapper.ofBranch? b = some w) :
    w.toBranch = b := by
  obtain ⟨_, hkeys, hslots⟩ := Wrapper.ofBranch?_eq_some h
  have hperm := Wrapper.order_perm_of_ofBranch? h
  have hnd := Wrapper.nodup_keys_toBranch hperm
  refine Entries.eq_of_find?_eq (w.keys_toBranch.trans hkeys) hnd fun key => ?_
  by_cases hk : key ∈ w.toBranch.keys
  · rw [w.keys_toBranch] at hk
    obtain ⟨s, hs, rfl⟩ := List.mem_map.mp hk
    rw [show Entries.find? s.key b = _ from hslots s, Entries.find?_eq_some_iff_mem hnd]
    exact List.mem_map_of_mem (f := fun s => (s.key, Node.scalar (w.slot s))) hs
  · have hb : key ∉ b.keys := by rwa [← hkeys, ← w.keys_toBranch]
    rw [Entries.find?_eq_none_iff.mpr hk, Entries.find?_eq_none_iff.mpr hb]

/-- Nothing is lost when a mapping is classified. -/
@[simp]
theorem Node.toBranch_ofBranch (b : Branch) : (Node.ofBranch b).toBranch = b := by
  unfold Node.ofBranch
  split
  · next w h => exact Wrapper.toBranch_of_ofBranch? h
  · rfl

/-- What is made of entries is a branch or a wrapper, never a scalar. -/
@[simp]
theorem Node.isMapping_ofBranch (b : Branch) : (Node.ofBranch b).isMapping = true := by
  unfold Node.ofBranch
  split <;> rfl

/-- Classifying a well-formed branch gives a well-formed node. -/
theorem Branch.WellFormed.ofBranch {b : Branch} (hb : b.WellFormed) :
    (Node.ofBranch b).WellFormed := by
  unfold Node.ofBranch
  split
  · next w h => exact Wrapper.order_perm_of_ofBranch? h
  · exact hb

/-! ## Trees that are read

A reader puts one entry after the other, so whatever it reads, keys do not repeat. -/

mutual
/-- The node of any JSON value is well formed. -/
theorem Node.wellFormed_ofJson : ∀ v : Json, (Node.ofJson v).WellFormed
  | .null => trivial
  | .bool _ => trivial
  | .number _ => trivial
  | .string _ => trivial
  | .array items => by
    rw [Node.ofJson]
    exact (Branch.wellFormed_nil.insertAll (Branch.wellFormed_ofItems 0 items)).ofBranch
  | .object entries => by
    rw [Node.ofJson]
    exact (Branch.wellFormed_nil.insertAll (Branch.wellFormed_ofMembers entries)).ofBranch
/-- The entries made of a JSON list are well-formed. -/
theorem Branch.wellFormed_ofItems (i : Nat) : ∀ (items : List Json),
    ∀ e ∈ Branch.ofItems i items, e.2.WellFormed
  | [], _, he => by cases he
  | v :: rest, e, he => by
    rw [Branch.ofItems] at he
    rcases List.mem_cons.mp he with rfl | he
    · exact Node.wellFormed_ofJson v
    · exact Branch.wellFormed_ofItems (i + 1) rest e he
/-- The entries made of a JSON object are well-formed. -/
theorem Branch.wellFormed_ofMembers : ∀ (entries : List (String × Json)),
    ∀ e ∈ Branch.ofMembers entries, e.2.WellFormed
  | [], _, he => by cases he
  | (k, v) :: rest, e, he => by
    rw [Branch.ofMembers] at he
    rcases List.mem_cons.mp he with rfl | he
    · exact Node.wellFormed_ofJson v
    · exact Branch.wellFormed_ofMembers rest e he
end

/-! ## Key order

Sorting moves entries about and leaves every node where it is found. -/

theorem Branch.sortEntries_perm (b : Branch) : b.sortEntries.Perm b :=
  Order.sort_perm _ b

/-- Sorting below a branch sorts each of its nodes where it is. -/
theorem Branch.sortChildren_eq_map : ∀ b : Branch,
    b.sortChildren = b.map fun e => (e.1, e.2.sortKeys)
  | [] => rfl
  | (k, n) :: rest => by rw [sortChildren, sortChildren_eq_map rest]; rfl

theorem Branch.keys_sortChildren (b : Branch) : b.sortChildren.keys = b.keys := by
  rw [sortChildren_eq_map]
  exact Entries.map_fst_map Node.sortKeys b

mutual
/-- A well-formed node is well-formed when it is sorted, at every level. -/
theorem Node.WellFormed.sortKeys : ∀ {n : Node}, n.WellFormed → n.sortKeys.WellFormed
  | .scalar _, h => by rw [Node.sortKeys]; exact h
  | .wrapper w, h => by
    rw [Node.sortKeys]
    exact (Order.sort_perm _ w.order).trans h
  | .branch b, h => by
    rw [Node.sortKeys]
    have hchildren : (Branch.sortChildren b).WellFormed :=
      ⟨(Branch.keys_sortChildren b).symm ▸ h.1, Branch.NodesWellFormed.sortChildren h.2⟩
    exact hchildren.perm (Branch.sortEntries_perm _).symm
/-- The same for the nodes of a branch, by the recursion of sorting. -/
theorem Branch.NodesWellFormed.sortChildren : ∀ {b : Branch}, b.NodesWellFormed →
    b.sortChildren.NodesWellFormed
  | [], h => by rw [Branch.sortChildren]; exact h
  | (_, n) :: rest, h => by
    rw [Branch.sortChildren]
    exact ⟨Node.WellFormed.sortKeys h.1, Branch.NodesWellFormed.sortChildren h.2⟩
end

theorem Branch.WellFormed.sortKeys {b : Branch} (hb : b.WellFormed) : b.sortKeys.WellFormed :=
  Node.WellFormed.sortKeys (n := .branch b) hb

/-- What is found after sorting below a branch is the sorted form of what was found before. -/
theorem Branch.get?_sortChildren (b : Branch) (key : String) :
    b.sortChildren.get? key = (b.get? key).map Node.sortKeys := by
  rw [sortChildren_eq_map]
  exact Entries.find?_map Node.sortKeys key b

/-- The same after sorting the branch itself, if it has each key once. -/
theorem Branch.get?_sortKeys {b : Branch} (hb : b.keys.Nodup) (key : String) :
    b.sortKeys.get? key = (b.get? key).map Node.sortKeys := by
  have hnd : b.sortKeys.keys.Nodup := by
    refine ((Branch.sortEntries_perm b.sortChildren).map Prod.fst).nodup_iff.mpr ?_
    rw [show b.sortChildren.map Prod.fst = b.keys from b.keys_sortChildren]
    exact hb
  rw [← get?_sortChildren]
  exact Entries.find?_eq_of_perm (Branch.sortEntries_perm b.sortChildren) hnd key

end FusionInspect
