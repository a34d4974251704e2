import FusionInspect.Proofs.Json.DistinctKeys
import FusionInspect.Proofs.Tree.Alike

/-!
# Nodes of JSON values

A list becomes a branch whose keys count from zero. Its keys are numerals, so they do not repeat, and
none of them is the key of a slot: however long the list, it is never taken for a wrapper
(`Node.ofJson_array`). An object keeps its entries, each with the node of its value
(`Node.get?_ofJson_object`), provided that its keys are distinct, as those of objects that are read are.
-/

namespace FusionInspect

/-! ## Lists -/

/-- Positions that are written alike are the same. -/
theorem toString_injective {i j : Nat} (h : toString i = toString j) : i = j := by
  have hdigits : Nat.toDigits 10 i = Nat.toDigits 10 j := by
    simpa [Nat.toString_eq_ofList_toDigits] using congrArg String.toList h
  calc
    i = Nat.ofDigitChars 10 (Nat.toDigits 10 i) 0 := Nat.ofDigitChars_ten_toDigits.symm
    _ = Nat.ofDigitChars 10 (Nat.toDigits 10 j) 0 := by rw [hdigits]
    _ = j := Nat.ofDigitChars_ten_toDigits

/-- A position is written in digits only, so without an underscore. -/
theorem underscore_not_mem_toString (i : Nat) : '_' ∉ (toString i).toList := by
  rw [Nat.toString_eq_ofList_toDigits, String.toList_ofList]
  exact Nat.underscore_not_in_toDigits

/-- So no position is the key of a slot, which has two of them in front. -/
theorem toString_ne_key (i : Nat) (s : Slot) : toString i ≠ s.key := by
  intro h
  have hunderscore : '_' ∈ s.key.toList := by cases s <;> decide
  rw [← h] at hunderscore
  exact underscore_not_mem_toString i hunderscore

/-- The keys of a list are the positions of its items, counted from the given one. -/
theorem Branch.keys_ofItems (items : List Json) (i : Nat) :
    Branch.keys (Branch.ofItems i items) = (List.range' i items.length).map toString := by
  induction items generalizing i with
  | nil => rfl
  | cons v rest ih =>
    rw [Branch.ofItems, List.length_cons, List.range'_succ, List.map_cons, ← ih (i + 1)]
    rfl

/-- No position comes twice. -/
theorem Branch.nodup_ofItems (items : List Json) (i : Nat) :
    (Branch.keys (Branch.ofItems i items)).Nodup := by
  rw [Branch.keys_ofItems]
  exact List.Pairwise.map _ (fun _ _ hne heq => hne (toString_injective heq)) List.nodup_range'

/-- A list is a branch of its items, never a wrapper. -/
theorem Node.ofJson_array (items : List Json) :
    Node.ofJson (.array items) = .branch (Branch.ofItems 0 items) := by
  have hshape : ¬ Branch.WrapperShaped (Branch.ofItems 0 items) := by
    intro hshape
    obtain ⟨v, hv, _⟩ := hshape.2 .objectType
    have hkey : Slot.key .objectType ∈ Branch.keys (Branch.ofItems 0 items) :=
      List.mem_map_of_mem (Entries.mem_of_find? hv)
    rw [Branch.keys_ofItems] at hkey
    obtain ⟨i, _, hi⟩ := List.mem_map.mp hkey
    exact toString_ne_key i .objectType hi
  rw [Node.ofJson, Branch.ofEntries, Entries.collect_of_nodup (Branch.nodup_ofItems items 0),
    Node.ofBranch_of_not_shaped hshape]

/-- The texts of a list of texts are all there, in order. -/
theorem Branch.filterMap_text?_ofItems (names : List String) (i : Nat) :
    (Branch.ofItems i (names.map .string)).filterMap (fun e => e.2.text?) = names := by
  induction names generalizing i with
  | nil => rfl
  | cons name rest ih =>
    rw [List.map_cons, Branch.ofItems, List.filterMap_cons, ih (i + 1)]
    rfl

/-! ## Objects -/

/-- The entries of an object are its members, each read by itself. -/
theorem Branch.ofMembers_eq_map : ∀ entries : List (String × Json),
    Branch.ofMembers entries = entries.map fun e => (e.1, Node.ofJson e.2)
  | [] => by rw [Branch.ofMembers]; rfl
  | (k, v) :: rest => by rw [Branch.ofMembers, Branch.ofMembers_eq_map rest]; rfl

/-- An object keeps its entries. -/
theorem Node.toBranch_ofJson_object {entries : List (String × Json)}
    (hnd : (entries.map Prod.fst).Nodup) :
    (Node.ofJson (.object entries)).toBranch = entries.map fun e => (e.1, Node.ofJson e.2) := by
  rw [Node.ofJson, Node.toBranch_ofBranch, Branch.ofMembers_eq_map]
  refine Entries.collect_of_nodup ?_
  rw [Entries.map_fst_map]
  exact hnd

/-- What is found in an object is what its member at the key is read as, wrapper or not. -/
theorem Node.get?_ofJson_object {entries : List (String × Json)} (hnd : (entries.map Prod.fst).Nodup)
    (key : String) : (Node.ofJson (.object entries)).toBranch.get? key =
      (Entries.find? key entries).map Node.ofJson := by
  rw [Node.toBranch_ofJson_object hnd]
  exact Entries.find?_map Node.ofJson key entries

end FusionInspect
