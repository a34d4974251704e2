import FusionInspect.Order.Stable
import Mathlib.Data.List.Nodup

/-!
# One element before another

Of two elements of a list without repetitions, one comes before the other. A list that is left from
such a list has its elements in the same order (`precedes_iff_of_sublist`), and stable sorting changes
the order of two elements only if they may not stand as they do (`precedes_sort`).
-/

namespace FusionInspect.Order

variable {α : Type} {a b : α} {l m : List α}

/-- An element comes before another in a list. -/
def Precedes (l : List α) (a b : α) : Prop :=
  [a, b].Sublist l

theorem Precedes.mem (h : Precedes l a b) : a ∈ l ∧ b ∈ l :=
  ⟨h.subset (by simp), h.subset (by simp)⟩

theorem Precedes.of_sublist (h : Precedes m a b) (hsub : m.Sublist l) : Precedes l a b :=
  List.Sublist.trans h hsub

theorem precedes_cons {c : α} : Precedes (c :: l) a b ↔ Precedes l a b ∨ (a = c ∧ b ∈ l) := by
  rw [Precedes, List.sublist_cons_iff]
  simp [Precedes, eq_comm]

/-- All of a first list comes before all of a second. -/
theorem precedes_append :
    Precedes (l ++ m) a b ↔ Precedes l a b ∨ (a ∈ l ∧ b ∈ m) ∨ Precedes m a b := by
  induction l with
  | nil => simp [Precedes]
  | cons c rest ih =>
    rw [List.cons_append, precedes_cons, precedes_cons, ih, List.mem_append, List.mem_cons]
    grind

/-- Leaving out elements does not change which of the others comes first. -/
theorem precedes_filter {p : α → Bool} :
    Precedes (l.filter p) a b ↔ p a = true ∧ p b = true ∧ Precedes l a b := by
  refine ⟨fun h => ?_, fun ⟨ha, hb, h⟩ => ?_⟩
  · obtain ⟨ha, hb⟩ := h.mem
    exact ⟨List.of_mem_filter ha, List.of_mem_filter hb, h.of_sublist List.filter_sublist⟩
  · have hfilter := List.Sublist.filter p h
    rwa [List.filter_cons_of_pos ha, List.filter_cons_of_pos hb, List.filter_nil] at hfilter

/-! ## Lists without repetitions -/

/-- Of two elements one comes before the other. -/
theorem precedes_or (ha : a ∈ l) (hb : b ∈ l) (hne : a ≠ b) : Precedes l a b ∨ Precedes l b a := by
  induction l with
  | nil => cases ha
  | cons c rest ih =>
    rw [precedes_cons, precedes_cons]
    rcases List.mem_cons.mp ha with rfl | harest
    · exact .inl (.inr ⟨rfl, (List.mem_cons.mp hb).resolve_left hne.symm⟩)
    rcases List.mem_cons.mp hb with rfl | hbrest
    · exact .inr (.inr ⟨rfl, harest⟩)
    · exact (ih harest hbrest).imp .inl .inl

/-- In a list without repetition not both come first. -/
theorem Precedes.not_precedes (hl : l.Nodup) (h : Precedes l a b) : ¬ Precedes l b a := by
  induction l with
  | nil => cases h
  | cons c rest ih =>
    obtain ⟨hc, hrest⟩ := List.nodup_cons.mp hl
    rw [precedes_cons] at h ⊢
    rintro (h' | ⟨rfl, ha⟩)
    · rcases h with h | ⟨rfl, _⟩
      · exact ih hrest h h'
      · exact hc h'.mem.2
    · rcases h with h | ⟨rfl, hb⟩
      · exact hc h.mem.2
      · exact hc hb

theorem Precedes.ne (hl : l.Nodup) (h : Precedes l a b) : a ≠ b := by
  rintro rfl
  exact h.not_precedes hl h

/-- What is left of a list without repetitions keeps its order. -/
theorem precedes_iff_of_sublist (hl : l.Nodup) (hsub : m.Sublist l) (ha : a ∈ m) (hb : b ∈ m) :
    Precedes l a b ↔ Precedes m a b := by
  refine ⟨fun h => ?_, fun h => h.of_sublist hsub⟩
  refine (precedes_or ha hb (h.ne hl)).resolve_right fun h' => ?_
  exact h.not_precedes hl (h'.of_sublist hsub)

/-! ## Sorted lists -/

theorem sublist_insert (le : α → α → Bool) (a : α) (l : List α) : l.Sublist (insert le a l) := by
  induction l with
  | nil => exact List.nil_sublist _
  | cons b rest ih =>
    rw [insert]
    split
    · exact List.sublist_cons_self _ _
    · exact ih.cons_cons b

/-- An element is inserted before all that it may come before. -/
theorem precedes_insert {le : α → α → Bool} (hb : b ∈ l) (hle : le a b = true) :
    Precedes (insert le a l) a b := by
  induction l with
  | nil => cases hb
  | cons c rest ih =>
    rw [insert]
    split
    · exact precedes_cons.mpr (.inr ⟨rfl, hb⟩)
    · next hac =>
      rcases List.mem_cons.mp hb with rfl | hb
      · exact absurd hle hac
      · exact precedes_cons.mpr (.inl (ih hb))

/-- Elements that may stand as they do are not moved past each other. -/
theorem Precedes.sort {le : α → α → Bool} (h : Precedes l a b) (hle : le a b = true) :
    Precedes (sort le l) a b := by
  induction l with
  | nil => cases h
  | cons c rest ih =>
    rcases precedes_cons.mp h with h | ⟨rfl, hb⟩
    · exact (ih h).of_sublist (sublist_insert le c _)
    · exact precedes_insert (mem_sort.mpr hb) hle

/-- In a sorted list an element comes before another if it has to, or if it may and did. -/
theorem precedes_sort {le : α → α → Bool}
    (htrans : ∀ a b c, le a b = true → le b c = true → le a c = true)
    (htotal : ∀ a b, le a b = true ∨ le b a = true) (hl : l.Nodup) (ha : a ∈ l) (hb : b ∈ l) :
    Precedes (Order.sort le l) a b ↔ ¬ le b a = true ∨ (le a b = true ∧ Precedes l a b) := by
  have hsorted : (Order.sort le l).Nodup := (sort_perm le l).nodup_iff.mpr hl
  have hpairwise : ∀ {a b}, Precedes (Order.sort le l) a b → le a b = true :=
    List.pairwise_iff_forall_sublist.mp (pairwise_sort htrans htotal l)
  constructor
  · intro h
    by_cases hba : le b a = true
    · refine .inr ⟨hpairwise h, ?_⟩
      refine (precedes_or ha hb (h.ne hsorted)).resolve_right fun h' => ?_
      exact h.not_precedes hsorted (h'.sort hba)
    · exact .inl hba
  · rintro (hba | ⟨hab, h⟩)
    · have hne : a ≠ b := by
        rintro rfl
        exact (htotal a a).elim hba hba
      exact (precedes_or (mem_sort.mpr ha) (mem_sort.mpr hb) hne).resolve_right fun h =>
        hba (hpairwise h)
    · exact h.sort hab

end FusionInspect.Order
