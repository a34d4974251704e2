import FusionInspect.Proofs.Display.Leaves
import FusionInspect.Proofs.Tree.Alike

/-!
# What a display has at a key

Each entry of a branch offers something to the display of the branch, told by the displays of what the
entry holds (`offered`). The display has at each key what was offered there last, and nothing where
nothing was offered (`flatten_shows_last`). None of the steps in between shows: placing by position, moving
meta keys to the front and collecting once more keep every entry.

A branch without entries to show offers nothing, so it leaves in place what was offered at its key before.
-/

namespace FusionInspect.Display

/-! ## What is offered -/

/-- A label for an object of some type, with a mark behind it if the type is not in the table. -/
def noted (table : Branch) (label objectType : String) : String :=
  if table.has objectType then label else label ++ " (?)"

/-- What stands for a wrapper: a reference to its type, else its value, else its expression, and for a
wrapper that has none of these the display of its three slots. -/
def standIn (table : Branch) (w : Wrapper) : Node :=
  let objectType := w.objectType.getD ""
  let expression := w.expression.getD ""
  if objectType ≠ "" then .scalar (.text (noted table ("prototype(" ++ objectType ++ ")") objectType))
  else if w.value.isEmpty = false then .scalar w.value
  else if expression ≠ "" then .scalar (.text ("$\x7b" ++ expression ++ "\x7d"))
  else .branch (flattenBranch table.has w.toBranch)

/-- What a branch offers under a key. Meta properties stand beside their siblings; a typed branch has its
type in the key, and its slots are left out. -/
def offeredBranch (table : Branch) (key : String) (c : Branch) : List (String × Node) :=
  if key = Key.metaProperties then
    (flattenBranch table.has c).map fun e => ("@" ++ e.1, e.2)
  else match c.objectType? with
    | some t => shown (noted table (key ++ " [" ++ t ++ "]") t)
        (flattenBranch table.has (c.filter fun e => e.1 ∉ Slot.all.map Slot.key))
    | none => shown key (flattenBranch table.has c)

/-- What an entry offers to the display of its branch. -/
def offered (table : Branch) : String × Node → List (String × Node)
  | (key, .scalar s) => [(key, .scalar s)]
  | (key, .wrapper w) => [(key, standIn table w)]
  | (key, .branch c) => offeredBranch table key c

section

variable {table b c : Branch} {key : String} {w : Wrapper}

/-! ## Contributions are what is offered -/

/-- The test for a slot finds the three keys of slots. -/
theorem isSlotKey_iff : isSlotKey key = true ↔ key ∈ Slot.all.map Slot.key := by
  rw [isSlotKey, Option.isSome_iff_exists, List.mem_map]
  constructor
  · rintro ⟨s, hs⟩
    exact ⟨s, by cases s <;> simp [Slot.all], Slot.ofKey?_eq_some hs⟩
  · rintro ⟨s, _, rfl⟩
    exact ⟨s, Slot.ofKey?_key s⟩

/-- A typed branch is shown as the branch without its slots would be. -/
theorem level_contributions_typed (known : String → Bool) (c : Branch) :
    level (contributions known true c) =
      flattenBranch known (c.filter fun e => e.1 ∉ Slot.all.map Slot.key) := by
  have hkept : (c.filter fun e => !(true && isSlotKey e.1)) =
      c.filter fun e => e.1 ∉ Slot.all.map Slot.key := by
    apply List.filter_congr
    intro e _
    simp [← isSlotKey_iff]
  rw [flattenBranch, contributions_eq_flatMap, contributions_eq_flatMap, hkept]
  simp

/-- What a branch contributes is what it offers. -/
theorem contribution_branch_eq (table : Branch) (key : String) (c : Branch) :
    contribution table.has key (.branch c) = offeredBranch table key c := by
  rw [contribution, offeredBranch, level_contributions_typed]
  by_cases hkey : key = Key.metaProperties
  · rw [if_pos (beq_iff_eq.mpr hkey), if_pos hkey]
    rfl
  · rw [if_neg (by simpa using hkey), if_neg hkey]
    rfl

/-- The slots of a wrapper are scalars, which are shown as they are. -/
theorem level_toBranch (known : String → Bool) (w : Wrapper) :
    level w.toBranch = flattenBranch known w.toBranch := by
  have hsame : w.toBranch.map (fun e => (e.1, again known e.2)) = w.toBranch := by
    rw [Wrapper.toBranch, List.map_map]
    rfl
  rw [flattenBranch, contributions_eq_map fun e he => ?_, hsame]
  obtain ⟨s, rfl⟩ := Wrapper.mem_toBranch he
  rw [contribution]
  rfl

/-- The display of a wrapper's slots is not empty. -/
theorem level_toBranch_ne_nil (horder : w.order.Perm Slot.all) : level w.toBranch ≠ [] := by
  intro hnil
  have hperm : (level w.toBranch).Perm w.toBranch := by
    rw [level_of_nodup (Wrapper.nodup_keys_toBranch horder)]
    exact laid_perm _
  have hlength := hperm.length_eq.trans (List.length_map _)
  rw [hnil, horder.length_eq] at hlength
  cases hlength

theorem filter_ne_empty (o : Option String) :
    o.filter (· != "") = if o.getD "" = "" then none else some (o.getD "") := by
  cases o with
  | none => rfl
  | some s =>
    by_cases hs : s = ""
    · simp [hs]
    · simp [hs]

/-- A wrapper contributes one entry, and it is what stands for the wrapper. -/
theorem contribution_wrapper (table : Branch) (key : String) (horder : w.order.Perm Slot.all) :
    contribution table.has key (.wrapper w) = [(key, standIn table w)] := by
  rw [contribution, collapsed?, standIn, Wrapper.objectType?, Wrapper.value?, Wrapper.expression?,
    filter_ne_empty, filter_ne_empty]
  by_cases htype : w.objectType.getD "" = ""
  · by_cases hvalue : w.value.isEmpty = true
    · by_cases hexpression : w.expression.getD "" = ""
      · simp only [htype, hvalue, hexpression, if_true, ne_eq, not_true_eq_false, if_false, Option.map_none,
          Bool.true_eq_false]
        rw [shown_of_ne_nil (level_toBranch_ne_nil horder), ← level_toBranch]
      · simp [htype, hvalue, hexpression]
    · simp [htype, hvalue]
  · simp only [htype, if_false, ne_eq, not_false_eq_true, if_true]
    rfl

/-- What the entries of a branch contribute is what they offer, if each wrapper has its three slots. -/
theorem contributions_eq_offered (table : Branch) {b : Branch}
    (hslots : ∀ key w, (key, Node.wrapper w) ∈ b → w.order.Perm Slot.all) :
    contributions table.has false b = b.flatMap (offered table) := by
  have hall : (b.filter fun e => !(false && isSlotKey e.1)) = b := by simp
  rw [contributions_eq_flatMap, hall]
  apply List.flatMap_congr
  rintro ⟨key, n⟩ he
  cases n with
  | scalar s => rw [contribution, offered]
  | wrapper w => exact contribution_wrapper table key (hslots key w he)
  | branch c => exact contribution_branch_eq table key c

/-! ## What is shown -/

/-- Placing and moving meta keys to the front leave at each key what was collected there. -/
theorem get?_level_eq (cs : List (String × Node)) (key : String) :
    (level cs).get? key = Entries.find? key (Entries.collect cs) := by
  have hperm : (level cs).Perm (Entries.collect cs) := by
    rw [level_eq]
    exact laid_perm _
  exact Entries.find?_eq_of_perm hperm (nodup_keys_level cs) key

/-- At its root a display differs from that of a branch in leaving out the bookkeeping. -/
theorem get?_flatten_eq (table b : Branch) (key : String) :
    (flatten table b).get? key =
      if isBookkeeping key = true then none else (flattenBranch table.has b).get? key := by
  by_cases hkey : isBookkeeping key = true
  · rw [if_pos hkey, flatten_eq]
    apply Entries.find?_eq_none_iff.mpr
    intro hmem
    obtain ⟨e, he, rfl⟩ := List.mem_map.mp hmem
    simp [hkey] at he
  · rw [if_neg hkey]
    exact get?_flatten (Bool.eq_false_iff.mpr hkey)

end

/-- **What a display has at a key.** It is what the entries of the branch offered there last, and nothing
if none of them offered anything there. The display of a definition differs only in leaving out the
bookkeeping. -/
theorem flatten_shows_last (table b : Branch)
    (hslots : ∀ key w, (key, Node.wrapper w) ∈ b → w.order.Perm Slot.all) :
    (flattenBranch table.has b).keys.Nodup ∧
    (∀ d n, (flattenBranch table.has b).get? d = some n ↔
      ∃ earlier later, b.flatMap (offered table) = earlier ++ (d, n) :: later ∧
        d ∉ later.map Prod.fst) ∧
    (∀ d, (flattenBranch table.has b).get? d = none ↔
      d ∉ (b.flatMap (offered table)).map Prod.fst) ∧
    ∀ d, (flatten table b).get? d =
      if isBookkeeping d = true then none else (flattenBranch table.has b).get? d := by
  have hget : ∀ d, (flattenBranch table.has b).get? d =
      Entries.find? d (Entries.collect (b.flatMap (offered table))) := by
    intro d
    rw [flattenBranch, contributions_eq_offered table hslots, get?_level_eq]
  refine ⟨nodup_keys_level _, fun d n => ?_, fun d => ?_, get?_flatten_eq table b⟩
  · rw [hget, Entries.find?_collect_eq_some_iff]
  · rw [hget, Entries.find?_collect_eq_none_iff]

/-- A page with a property at the key of one of its meta properties, a reference, a wrapper that has only
its slots, a link of a type that is not in the table, and a branch that shows nothing. -/
def offeringPage : Branch :=
  [("@class", .scalar (.text "old")),
    ("button", .wrapper ⟨some "Button", some "q(node)", .text "x", Slot.all⟩),
    ("icon", .wrapper ⟨some "", none, .bool false, [.value, .objectType, .expression]⟩),
    ("link", .branch [(Key.objectType, .scalar (.text "Link")), ("href", .scalar (.text "/"))]),
    ("none", .branch [("deep", .branch [])]),
    (Key.metaProperties, .branch [("class", .scalar (.text "page"))]),
    (Key.stopInheritanceChain, .scalar (.bool true))]

/-- The table that the page is displayed against. -/
def offeringTable : Branch := [("Button", .branch [])]

/-- The meta property is shown in place of the property, the reference by its type, the slots as they are,
the link with a mark, and the empty branch not at all. -/
theorem flatten_shows_last_offeringPage :
    (∀ key w, (key, Node.wrapper w) ∈ offeringPage → w.order.Perm Slot.all) ∧
    (flattenBranch offeringTable.has offeringPage).get? "@class" = some (.scalar (.text "page")) ∧
    (flattenBranch offeringTable.has offeringPage).get? "button" =
      some (.scalar (.text "prototype(Button)")) ∧
    (flattenBranch offeringTable.has offeringPage).get? "icon" =
      some (.branch [(Key.value, .scalar (.bool false)), (Key.objectType, .scalar (.text "")),
        (Key.expression, .scalar .null)]) ∧
    (flattenBranch offeringTable.has offeringPage).get? "link [Link] (?)" =
      some (.branch [("href", .scalar (.text "/"))]) ∧
    (flattenBranch offeringTable.has offeringPage).get? "none" = none ∧
    (flatten offeringTable offeringPage).get? Key.stopInheritanceChain = none := by
  have hslots : ∀ key w, (key, Node.wrapper w) ∈ offeringPage → w.order.Perm Slot.all := by
    intro key w hw
    simp only [offeringPage, List.mem_cons, Prod.mk.injEq, reduceCtorEq, Node.wrapper.injEq, and_false,
      List.not_mem_nil, or_false, false_or] at hw
    rcases hw with ⟨_, rfl⟩ | ⟨_, rfl⟩ <;> decide
  obtain ⟨_, hlast, hnone, hroot⟩ := flatten_shows_last offeringTable offeringPage hslots
  refine ⟨hslots, (hlast _ _).mpr ⟨[_, _, _, _], _, rfl, by decide +kernel⟩,
    (hlast _ _).mpr ⟨[_], _, rfl, by decide +kernel⟩,
    (hlast _ _).mpr ⟨[_, _], _, rfl, by decide +kernel⟩,
    (hlast _ _).mpr ⟨[_, _, _], _, rfl, by decide +kernel⟩, (hnone _).mpr (by decide +kernel),
    hroot _⟩

end FusionInspect.Display
