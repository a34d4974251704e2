import FusionInspect.Proofs.Tree.Canonical
import FusionInspect.Proofs.Tree.OfJson

/-!
# Trees and their JSON values

A canonical tree is read back from its JSON value as it was, with the order of its keys and of the slots
of its wrappers. In the other direction lists are given up on purpose: they come back as objects whose
keys count from zero (`Json.keyed`). All else comes back as it was, objects with the three slots among
it, which were wrappers on the way.

Classifying is the step that could lose something, and it loses nothing either way: a mapping has the
same JSON value before and after it (`Node.toJson_ofBranch`), and a wrapper that is taken apart is
classified as the same wrapper (`Wrapper.ofBranch?_toBranch`).
-/

namespace FusionInspect

/-! ## Lists as objects -/

mutual
/-- The value with every list in it, at every depth, as the object of its items under their positions. -/
def Json.keyed : Json → Json
  | .array items => .object (Json.keyedItems 0 items)
  | .object entries => .object (Json.keyedEntries entries)
  | v => v
/-- Items under their positions, counted from the given one. -/
def Json.keyedItems (i : Nat) : List Json → List (String × Json)
  | [] => []
  | v :: rest => (toString i, v.keyed) :: Json.keyedItems (i + 1) rest
/-- Entries in their order, each with its value so changed. -/
def Json.keyedEntries : List (String × Json) → List (String × Json)
  | [] => []
  | (k, v) :: rest => (k, v.keyed) :: Json.keyedEntries rest
end

/-! ## Mappings as JSON values -/

/-- The members that a branch is written as are its entries, each written by itself. -/
theorem Branch.toMembers_eq_map : ∀ b : Branch, b.toMembers = b.map fun e => (e.1, e.2.toJson)
  | [] => by rw [Branch.toMembers]; rfl
  | (k, n) :: rest => by rw [Branch.toMembers, Branch.toMembers_eq_map rest]; rfl

/-- A wrapper is written as the branch of its slots. -/
theorem Wrapper.toJson_eq (w : Wrapper) : w.toJson = w.toBranch.toJson := by
  rw [Wrapper.toJson, Branch.toJson, Branch.toMembers_eq_map, Wrapper.toBranch, List.map_map]
  rfl

/-- A mapping is written the same whether it is classified as a wrapper or not. -/
theorem Node.toJson_ofBranch (b : Branch) : (Node.ofBranch b).toJson = b.toJson := by
  unfold Node.ofBranch
  split
  · next w hw => rw [Node.toJson, w.toJson_eq, Wrapper.toBranch_of_ofBranch? hw]
  · rw [Node.toJson, Branch.toJson]

/-! ## Wrappers taken apart -/

/-- A wrapper of the three slots is determined by its entries. -/
theorem Wrapper.toBranch_injective {v w : Wrapper} (hv : v.order.Perm Slot.all)
    (h : v.toBranch = w.toBranch) : v = w := by
  have hkeys : v.order.map Slot.key = w.order.map Slot.key := by
    rw [← v.keys_toBranch, ← w.keys_toBranch, h]
  have horder : v.order = w.order := List.map_injective_iff.mpr (fun _ _ => Slot.key_injective) hkeys
  have hslot : ∀ s : Slot, v.slot s = w.slot s := by
    intro s
    have hget := Wrapper.get?_toBranch (horder ▸ hv) s
    rw [← h, Wrapper.get?_toBranch hv s] at hget
    exact Node.scalar.inj (Option.some.inj hget)
  obtain ⟨type, expression, value, order⟩ := v
  obtain ⟨type', expression', value', order'⟩ := w
  have htype : type = type' := slotText_injective (hslot .objectType)
  have hexpression : expression = expression' := slotText_injective (hslot .expression)
  have hvalue : value = value' := hslot .value
  have horder' : order = order' := horder
  subst htype hexpression hvalue horder'
  rfl

/-- The entries of a wrapper have the shape of one. -/
theorem Wrapper.wrapperShaped_toBranch {w : Wrapper} (hw : w.order.Perm Slot.all) :
    w.toBranch.WrapperShaped := by
  refine ⟨w.keys_toBranch ▸ hw.map Slot.key, fun s => ⟨w.slot s, Wrapper.get?_toBranch hw s, ?_⟩⟩
  cases s with
  | objectType => cases ht : w.objectType <;> simp [Slot.Admits, Wrapper.slot, ht]
  | expression => cases ht : w.expression <;> simp [Slot.Admits, Wrapper.slot, ht]
  | value => trivial

/-- A wrapper that is taken apart is classified as the same wrapper, its slots in the same order. -/
theorem Wrapper.ofBranch?_toBranch {w : Wrapper} (hw : w.order.Perm Slot.all) :
    Wrapper.ofBranch? w.toBranch = some w := by
  obtain ⟨v, hv⟩ := Branch.wrapperShaped_iff.mp (Wrapper.wrapperShaped_toBranch hw)
  have hsame : v.toBranch = w.toBranch := Wrapper.toBranch_of_ofBranch? hv
  rw [hv, Wrapper.toBranch_injective (Wrapper.order_perm_of_ofBranch? hv) hsame]

/-! ## From trees to JSON and back -/

theorem Node.ofJson_scalar (s : Scalar) : Node.ofJson s.toJson = .scalar s := by
  cases s <;> rw [Scalar.toJson, Node.ofJson]

/-- A mapping of nodes that are read back is read back, and classified anew. -/
theorem Node.ofJson_toJson_branch {b : Branch} (hnd : b.keys.Nodup)
    (hnodes : ∀ e ∈ b, Node.ofJson e.2.toJson = e.2) : Node.ofJson b.toJson = .ofBranch b := by
  have hback : (b.map fun e => (e.1, Node.ofJson e.2.toJson)) = b := by
    refine (List.map_congr_left fun e he => ?_).trans (List.map_id b)
    rw [hnodes e he]
    rfl
  rw [Branch.toJson, Node.ofJson, Branch.ofMembers_eq_map, Branch.toMembers_eq_map, List.map_map]
  change Node.ofBranch (Branch.ofEntries (b.map fun e => (e.1, Node.ofJson e.2.toJson))) = _
  rw [hback, Branch.ofEntries, Entries.collect_of_nodup hnd]

/-- A canonical node is read back from its JSON value as it was. -/
theorem Node.Canonical.ofJson_toJson {n : Node} (hn : n.Canonical) : Node.ofJson n.toJson = n := by
  induction hn with
  | scalar s => rw [Node.toJson, Node.ofJson_scalar]
  | @wrapper w horder =>
    have hslots : ∀ e ∈ w.toBranch, Node.ofJson e.2.toJson = e.2 := by
      intro e he
      obtain ⟨s, rfl⟩ := Wrapper.mem_toBranch he
      rw [Node.toJson, Node.ofJson_scalar]
    rw [Node.toJson, w.toJson_eq, Node.ofJson_toJson_branch (Wrapper.nodup_keys_toBranch horder) hslots,
      Node.ofBranch, Wrapper.ofBranch?_toBranch horder]
  | @branch b hshape hnd _ ih =>
    rw [Node.toJson, show Json.object b.toMembers = b.toJson from rfl,
      Node.ofJson_toJson_branch hnd ih, Node.ofBranch_of_not_shaped hshape]

/-! ## From JSON to trees and back -/

/-- A list is written as its items under their positions, if each item is written so. -/
theorem Branch.toMembers_ofItems {items : List Json} (i : Nat)
    (h : ∀ v ∈ items, (Node.ofJson v).toJson = v.keyed) :
    Branch.toMembers (Branch.ofItems i items) = Json.keyedItems i items := by
  induction items generalizing i with
  | nil => rw [Branch.ofItems, Branch.toMembers, Json.keyedItems]
  | cons v rest ih =>
    obtain ⟨hv, hrest⟩ := List.forall_mem_cons.mp h
    rw [Branch.ofItems, Branch.toMembers, Json.keyedItems, hv, ih (i + 1) hrest]

/-- An object is written with its keys, if the value at each of them is written so. -/
theorem Branch.toMembers_ofMembers {entries : List (String × Json)}
    (h : ∀ e ∈ entries, (Node.ofJson e.2).toJson = e.2.keyed) :
    Branch.toMembers (Branch.ofMembers entries) = Json.keyedEntries entries := by
  induction entries with
  | nil => rw [Branch.ofMembers, Branch.toMembers, Json.keyedEntries]
  | cons e rest ih =>
    obtain ⟨k, v⟩ := e
    obtain ⟨hv, hrest⟩ := List.forall_mem_cons.mp h
    rw [Branch.ofMembers, Branch.toMembers, Json.keyedEntries, hv, ih hrest]

/-- A value with distinct keys is written as it was read, its lists keyed by position. -/
theorem Json.DistinctKeys.toJson_ofJson {v : Json} (hv : v.DistinctKeys) :
    (Node.ofJson v).toJson = v.keyed := by
  induction hv with
  | null => rfl
  | bool b => rfl
  | number n => rfl
  | string s => rfl
  | @array items _ ih =>
    rw [Node.ofJson_array, Node.toJson, Branch.toMembers_ofItems 0 ih, Json.keyed]
  | @object entries hnd _ ih =>
    have hkeys : ((Branch.ofMembers entries).map Prod.fst).Nodup := by
      rw [Branch.ofMembers_eq_map, Entries.map_fst_map]
      exact hnd
    rw [Node.ofJson, Node.toJson_ofBranch, Branch.ofEntries, Entries.collect_of_nodup hkeys,
      Branch.toJson, Branch.toMembers_ofMembers ih, Json.keyed]

/-- **Trees and JSON values are read back from each other.** A canonical tree is read back from its JSON
value as it was, the order of keys and of slots included. A JSON value whose objects have distinct keys
is read back from its tree with its lists as objects, and otherwise as it was. -/
theorem Node.json_round_trip :
    (∀ n : Node, n.Canonical → Node.ofJson n.toJson = n) ∧
      ∀ v : Json, v.DistinctKeys → (Node.ofJson v).toJson = v.keyed :=
  ⟨fun _ => Node.Canonical.ofJson_toJson, fun _ => Json.DistinctKeys.toJson_ofJson⟩

/-- A page with a wrapper whose slots are not in their usual order, and beside it a mapping of the same
keys that is none, since a branch stands in the slot of its value. -/
def slottedPage : Node :=
  .branch [("title", .wrapper ⟨some "", none, .text "Home", [.value, .objectType, .expression]⟩),
    ("body", .branch [(Key.value, .branch [("0", .scalar (.bool true))]),
      (Key.objectType, .scalar .null), (Key.expression, .scalar .null)])]

/-- The same page, where the branch is written as a list. -/
def slottedJson : Json :=
  .object [("title", .object [(Key.value, .string "Home"), (Key.objectType, .string ""),
      (Key.expression, .null)]),
    ("body", .object [(Key.value, .array [.bool true]), (Key.objectType, .null),
      (Key.expression, .null)])]

theorem Node.canonical_slottedPage : slottedPage.Canonical := by
  have hslots : ([.value, .objectType, .expression] : List Slot).Perm Slot.all := by decide
  refine .branch (fun h => absurd h.1 (by decide)) (by decide) ?_
  simp only [List.forall_mem_cons, List.not_mem_nil, false_implies, implies_true, and_true]
  refine ⟨.wrapper hslots, .branch (fun h => ?_) (by decide) ?_⟩
  · -- the slot of the value holds no scalar
    obtain ⟨v, hv, _⟩ := h.2 .value
    cases hv
  · simp only [List.forall_mem_cons, List.not_mem_nil, false_implies, implies_true, and_true]
    refine ⟨.branch (fun h => absurd h.1 (by decide)) (by decide) ?_, .scalar _, .scalar _⟩
    simpa using Node.Canonical.scalar _

/-- The page is read back as it was, with the wrapper that it has and without one where the shape is not
that of one. -/
theorem Node.json_round_trip_slottedPage :
    slottedPage.Canonical ∧ Node.ofJson slottedPage.toJson = slottedPage ∧
      slottedJson.DistinctKeys ∧ (Node.ofJson slottedJson).toJson = slottedJson.keyed ∧
      slottedJson.keyed = slottedPage.toJson := by
  have hdistinct : slottedJson.DistinctKeys := by
    refine .object (by decide) ?_
    simp only [List.forall_mem_cons, List.not_mem_nil, false_implies, implies_true, and_true]
    refine ⟨.object (by decide) ?_, .object (by decide) ?_⟩
    · simp [Json.DistinctKeys.null, Json.DistinctKeys.string]
    · simp only [List.forall_mem_cons, List.not_mem_nil, false_implies, implies_true, and_true]
      exact ⟨.array (by simp [Json.DistinctKeys.bool]), .null, .null⟩
  exact ⟨canonical_slottedPage, Node.json_round_trip.1 _ canonical_slottedPage, hdistinct,
    Node.json_round_trip.2 _ hdistinct, rfl⟩

end FusionInspect
