/-!
# Stable sorting

Lists are sorted by insertion, so elements that may stand on either side of each other keep their
order. The comparison is whether one element may stand before another.
-/

namespace FusionInspect.Order

variable {α : Type}

/-- Puts an element in front of the first one that it may stand before. -/
def insert (le : α → α → Bool) (a : α) : List α → List α
  | [] => [a]
  | b :: rest => if le a b then a :: b :: rest else b :: insert le a rest

/-- The list in order, where elements that may stand on either side of each other keep their order. -/
def sort (le : α → α → Bool) : List α → List α
  | [] => []
  | a :: rest => insert le a (sort le rest)

/-- Inserting adds one element and keeps the others. -/
theorem insert_perm (le : α → α → Bool) (a : α) (l : List α) : (insert le a l).Perm (a :: l) := by
  induction l with
  | nil => exact .refl _
  | cons b rest ih =>
    rw [insert]
    split
    · exact .refl _
    · exact (ih.cons b).trans (.swap a b rest)

/-- Sorting neither loses nor adds an element. -/
theorem sort_perm (le : α → α → Bool) (l : List α) : (sort le l).Perm l := by
  induction l with
  | nil => exact .refl _
  | cons a rest ih => exact (insert_perm le a _).trans (ih.cons a)

@[simp]
theorem mem_sort {le : α → α → Bool} {a : α} {l : List α} : a ∈ sort le l ↔ a ∈ l :=
  (sort_perm le l).mem_iff

/-! ## Sorted lists

A list that is in order stays as it is, so sorting keeps the order of elements that may stand on
either side of each other. -/

/-- What is in order is left as it is. -/
theorem sort_eq_self {le : α → α → Bool} {l : List α} (h : l.Pairwise fun a b => le a b = true) :
    sort le l = l := by
  induction l with
  | nil => rfl
  | cons a rest ih =>
    obtain ⟨ha, hrest⟩ := List.pairwise_cons.mp h
    rw [sort, ih hrest]
    cases rest with
    | nil => rfl
    | cons b rest => rw [insert, if_pos (ha b List.mem_cons_self)]

/-- Sorting depends on how the elements of the list compare, and on no others. -/
theorem sort_congr {le le' : α → α → Bool} {l : List α}
    (h : ∀ a ∈ l, ∀ b ∈ l, le a b = le' a b) : sort le l = sort le' l := by
  have step : ∀ {a : α} {l : List α}, (∀ b ∈ l, le a b = le' a b) →
      insert le a l = insert le' a l := by
    intro a l hl
    induction l with
    | nil => rfl
    | cons b rest ih =>
      obtain ⟨hb, hrest⟩ := List.forall_mem_cons.mp hl
      rw [insert, insert, hb, ih hrest]
  induction l with
  | nil => rfl
  | cons a rest ih =>
    have hrest : sort le rest = sort le' rest := ih fun b hb c hc =>
      h b (List.mem_cons_of_mem _ hb) c (List.mem_cons_of_mem _ hc)
    rw [sort, sort, hrest]
    exact step fun b hb => h a List.mem_cons_self b (List.mem_cons_of_mem _ (mem_sort.mp hb))

/-- Elements can be replaced by what they are compared by before sorting or afterwards. -/
theorem sort_map {β : Type} (le : β → β → Bool) (f : α → β) (l : List α) :
    sort le (l.map f) = (sort (fun a b => le (f a) (f b)) l).map f := by
  have step : ∀ (a : α) (l : List α),
      insert le (f a) (l.map f) = (insert (fun a b => le (f a) (f b)) a l).map f := by
    intro a l
    induction l with
    | nil => rfl
    | cons b rest ih =>
      rw [List.map_cons, insert, insert, ih]
      split <;> rfl
  induction l with
  | nil => rfl
  | cons a rest ih => rw [List.map_cons, sort, sort, ih, step]

section

variable {le : α → α → Bool} (htrans : ∀ a b c, le a b = true → le b c = true → le a c = true)
  (htotal : ∀ a b, le a b = true ∨ le b a = true)

include htrans

/-- In a sorted list an element finds its place whether or not others are left out. -/
theorem filter_insert (p : α → Bool) (a : α) {l : List α}
    (h : l.Pairwise fun a b => le a b = true) :
    (insert le a l).filter p = if p a then insert le a (l.filter p) else l.filter p := by
  induction l with
  | nil => rw [insert, List.filter_cons, List.filter_nil]; rfl
  | cons b rest ih =>
    obtain ⟨hb, hrest⟩ := List.pairwise_cons.mp h
    by_cases hab : le a b = true
    · rw [insert, if_pos hab, List.filter_cons]
      cases hpa : p a with
      | false => rfl
      | true =>
        -- `a` may stand before `b`, so before all that is kept of the list
        have hfront : ∀ c ∈ (b :: rest).filter p, le a c = true := by
          intro c hc
          rcases List.mem_cons.mp (List.mem_filter.mp hc).1 with rfl | hc
          · exact hab
          · exact htrans a b c hab (hb c hc)
        cases hkept : (b :: rest).filter p with
        | nil => rfl
        | cons c more =>
          have hac : le a c = true := hfront c (by rw [hkept]; exact List.mem_cons_self)
          rw [if_pos rfl, if_pos rfl, insert, if_pos hac]
    · rw [insert, if_neg hab, List.filter_cons, ih hrest]
      cases hpb : p b with
      | false =>
        rw [List.filter_cons, hpb]
        rfl
      | true =>
        rw [List.filter_cons, hpb]
        cases p a with
        | false => rfl
        | true => simp only [if_true, insert, if_neg hab]

include htotal

/-- Inserting into what is in order leaves it in order. -/
theorem pairwise_insert (a : α) {l : List α} (h : l.Pairwise fun a b => le a b = true) :
    (insert le a l).Pairwise fun a b => le a b = true := by
  induction l with
  | nil => exact List.pairwise_singleton _ _
  | cons b rest ih =>
    obtain ⟨hb, hrest⟩ := List.pairwise_cons.mp h
    rw [insert]
    split
    · next hab =>
      refine List.pairwise_cons.mpr ⟨fun c hc => ?_, h⟩
      rcases List.mem_cons.mp hc with rfl | hc
      · exact hab
      · exact htrans a b c hab (hb c hc)
    · next hab =>
      refine List.pairwise_cons.mpr ⟨fun c hc => ?_, ih hrest⟩
      rcases List.mem_cons.mp ((insert_perm le a rest).mem_iff.mp hc) with rfl | hc
      · exact (htotal c b).resolve_left hab
      · exact hb c hc

/-- What was sorted is in order. -/
theorem pairwise_sort (l : List α) : (sort le l).Pairwise fun a b => le a b = true := by
  induction l with
  | nil => exact .nil
  | cons a rest ih => exact pairwise_insert htrans htotal a ih

/-- Sorting and leaving out may change places. -/
theorem filter_sort (p : α → Bool) (l : List α) :
    (sort le l).filter p = sort le (l.filter p) := by
  induction l with
  | nil => rfl
  | cons a rest ih =>
    rw [sort, filter_insert htrans p a (pairwise_sort htrans htotal rest), ih,
      List.filter_cons]
    cases p a with
    | false => rfl
    | true => rfl

/-- Lists of the same elements are sorted into one list, if no two elements may stand on either side of
each other. -/
theorem sort_eq_of_perm {l m : List α} (h : l.Perm m)
    (hanti : ∀ a ∈ l, ∀ b ∈ l, le a b = true → le b a = true → a = b) : sort le l = sort le m := by
  refine List.Perm.eq_of_pairwise ?_ (pairwise_sort htrans htotal l) (pairwise_sort htrans htotal m)
    ((sort_perm le l).trans (h.trans (sort_perm le m).symm))
  intro a b ha hb hab hba
  exact hanti a (mem_sort.mp ha) b (h.mem_iff.mpr (mem_sort.mp hb)) hab hba

end

end FusionInspect.Order
